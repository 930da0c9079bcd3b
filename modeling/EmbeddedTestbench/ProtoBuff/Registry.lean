import EmbeddedTestbench.Lib.SlotTable

/-!
# The handler registry (`ProtoBuff.c`)

`handlers[PROTOBUFF_MAX_HANDLERS]` and the 16-bit `handlers_usage_mask`. Types and callbacks are
pointers, and `none` is `NULL`: `add_handler` checks neither. A cleared bit leaves the stale array
entry behind only in principle, since `clear_handlers` zeroes the array as well; the search does
not rely on it.

Headlines:
* **`addHandler_cases`**: all that `add_handler` can do, in terms of the slots.
* **`runCalls_refines`**: after any calls the registry stands for the partial map that the same
  calls make.
* **`registry_refines_map`**: what that means for every operation.
-/

namespace EmbeddedTestbench.ProtoBuff

open EmbeddedTestbench.Lib

/-- `Handler`. -/
structure Handler (T C : Type) where
  callback : Option C
  type : Option T
  deriving DecidableEq, Repr

/-- `handlers` and `handlers_usage_mask`. -/
structure Registry (T C : Type) where
  handlers : Fin 16 → Handler T C
  handlersUsageMask : UInt16

variable {T C : Type}

/-- The state at program start. -/
def Registry.init : Registry T C := ⟨fun _ => ⟨none, none⟩, 0⟩

/-- `bitRead`. -/
def bitRead (value : UInt16) (bit : Nat) : UInt16 := (value >>> UInt16.ofNat bit) &&& 0x01

/-- `bitSet`. -/
def bitSet (value : UInt16) (bit : Nat) : UInt16 := value ||| (1 <<< UInt16.ofNat bit)

/-- `idx_valid`. -/
def idxValid (idx : Int) : Bool := decide (0 ≤ idx ∧ idx < 16)

/-- `find_handler`. -/
def findHandler [DecidableEq T] (r : Registry T C) (type : Option T) : Int :=
  match (List.finRange 16).find? fun i : Fin 16 =>
      bitRead r.handlersUsageMask i = 1 && (r.handlers i).type = type with
  | some i => i.val
  | none => -1

/-- `get_unused_idx`. -/
def getUnusedIdx (r : Registry T C) : Int × Registry T C :=
  match (List.finRange 16).find? fun i : Fin 16 => bitRead r.handlersUsageMask i = 0 with
  | some i => (i.val, { r with handlersUsageMask := bitSet r.handlersUsageMask i })
  | none => (-1, r)

/-- `handlers[idx] = handler`. -/
def Registry.setHandler (r : Registry T C) (idx : Int) (handler : Handler T C) : Registry T C :=
  { r with handlers := fun i => if (i.val : Int) = idx then handler else r.handlers i }

/-- `add_handler`. -/
def addHandler [DecidableEq T] (r : Registry T C) (type : Option T) (callback : Option C) :
    Bool × Registry T C :=
  if idxValid (findHandler r type) then (false, r)
  else
    match getUnusedIdx r with
    | (idx, r) =>
      if idxValid idx then (true, r.setHandler idx ⟨callback, type⟩) else (false, r)

/-- `clear_handlers`. -/
def clearHandlers (r : Registry T C) : Registry T C :=
  { r with handlers := fun _ => ⟨none, none⟩, handlersUsageMask := 0 }

/-- A call that changes the registry. -/
inductive Call (T C : Type) where
  | add (type : Option T) (callback : Option C)
  | clear

/-- The registry after a call. -/
def Call.apply [DecidableEq T] (r : Registry T C) : Call T C → Registry T C
  | .add type callback => (addHandler r type callback).2
  | .clear => clearHandlers r

/-- The registry after a sequence of calls from the start. -/
def runCalls [DecidableEq T] (calls : List (Call T C)) : Registry T C := calls.foldl Call.apply .init

/-! ## The mask -/

theorem toNat_ofNat_fin (i : Fin 16) : (UInt16.ofNat i.val).toNat % 16 = i.val := by
  have hword : i.val % 2 ^ 16 = i.val := by omega
  rw [UInt16.toNat_ofNat', hword, Nat.mod_eq_of_lt i.isLt]

theorem bitRead_toNat (m : UInt16) (i : Fin 16) :
    (bitRead m i).toNat = (m.toNat.testBit i).toNat := by
  rw [bitRead, UInt16.toNat_and, UInt16.toNat_shiftRight, toNat_ofNat_fin, Nat.toNat_testBit,
    Nat.shiftRight_eq_div_pow]
  exact Nat.and_two_pow_sub_one_eq_mod _ 1

theorem bitRead_eq_one {m : UInt16} {i : Fin 16} :
    bitRead m i = 1 ↔ m.toNat.testBit i = true := by
  rw [← UInt16.toNat_inj, bitRead_toNat]
  cases m.toNat.testBit i <;> decide

theorem bitRead_eq_zero {m : UInt16} {i : Fin 16} :
    bitRead m i = 0 ↔ m.toNat.testBit i = false := by
  rw [← UInt16.toNat_inj, bitRead_toNat]
  cases m.toNat.testBit i <;> decide

theorem testBit_bitSet (m : UInt16) (i j : Fin 16) :
    (bitSet m i).toNat.testBit j = (m.toNat.testBit j || decide (j = i)) := by
  have hone : ((1 : UInt16) <<< UInt16.ofNat i.val).toNat = 2 ^ i.val := by
    rw [UInt16.toNat_shiftLeft, toNat_ofNat_fin, UInt16.toNat_one, Nat.one_shiftLeft]
    exact Nat.mod_eq_of_lt (Nat.pow_lt_pow_right (by decide) i.isLt)
  rw [bitSet, UInt16.toNat_or, hone, Nat.testBit_or, Nat.testBit_two_pow]
  congr 1
  rw [decide_eq_decide, Fin.ext_iff]
  exact eq_comm

/-! ## The slots -/

/-- Slot `i` is in use. -/
def Registry.Used (r : Registry T C) (i : Fin 16) : Prop := r.handlersUsageMask.toNat.testBit i = true

instance (r : Registry T C) : DecidablePred r.Used := fun _ => inferInstanceAs (Decidable (_ = _))

/-- The used slots hold distinct types. -/
def Registry.Distinct (r : Registry T C) : Prop :=
  ∀ i j, r.Used i → r.Used j → (r.handlers i).type = (r.handlers j).type → i = j

/-- What slot `i` holds; stale array entries are not in it. -/
def Registry.slot (r : Registry T C) (i : Fin 16) : Option (Option T × Option C) :=
  if r.Used i then some ((r.handlers i).type, (r.handlers i).callback) else none

theorem slot_eq_some {r : Registry T C} {i : Fin 16} {a : Option T × Option C} :
    r.slot i = some a ↔ r.Used i ∧ (r.handlers i).type = a.1 ∧ (r.handlers i).callback = a.2 := by
  unfold Registry.slot
  split_ifs with h
  · rw [Option.some.injEq, Prod.ext_iff]
    exact (and_iff_right h).symm
  · simp [h]

/-- The slots as a table. -/
def Registry.table (r : Registry T C) (h : r.Distinct) : SlotTable 16 (Option T) (Option C) where
  slot := r.slot
  distinct i j a b ha hb hab := by
    obtain ⟨hi, hti, -⟩ := slot_eq_some.mp ha
    obtain ⟨hj, htj, -⟩ := slot_eq_some.mp hb
    exact h i j hi hj (hti.trans (hab.trans htj.symm))

/-- A slot number, or `-1`. -/
def toIdx : Option (Fin 16) → Int
  | some i => i.val
  | none => -1

theorem idxValid_toIdx (o : Option (Fin 16)) : idxValid (toIdx o) = o.isSome := by
  cases o with
  | none => rfl
  | some i =>
    have := i.isLt
    rw [idxValid, toIdx, Option.isSome_some, decide_eq_true_eq]
    omega

variable {r : Registry T C}

/-- `get_unused_idx` takes the first free slot. -/
theorem getUnusedIdx_eq (h : r.Distinct) :
    getUnusedIdx r = match (r.table h).free with
      | some i => (toIdx (some i), { r with handlersUsageMask := bitSet r.handlersUsageMask i })
      | none => (-1, r) := by
  have hpred : (fun i : Fin 16 => decide (bitRead r.handlersUsageMask i = 0))
      = fun i => ((r.table h).slot i).isNone := by
    funext i
    by_cases hu : r.Used i
    · have hb : bitRead r.handlersUsageMask i ≠ 0 := by
        rw [bitRead_eq_one.mpr hu]
        decide
      simp [Registry.table, Registry.slot, hu, hb]
    · simp [Registry.table, Registry.slot, hu, bitRead_eq_zero.mpr (Bool.not_eq_true _ ▸ hu)]
  unfold getUnusedIdx SlotTable.free
  rw [hpred]
  rfl

/-- The registry with a new entry in slot `i`. -/
def Registry.put (r : Registry T C) (i : Fin 16) (handler : Handler T C) : Registry T C :=
  Registry.setHandler { r with handlersUsageMask := bitSet r.handlersUsageMask i } i.val handler

theorem slot_put (i : Fin 16) (handler : Handler T C) :
    (r.put i handler).slot = Function.update r.slot i (some (handler.type, handler.callback)) := by
  funext j
  by_cases hj : j = i
  · subst hj
    rw [Function.update_self, slot_eq_some]
    have hused : (r.put j handler).Used j := by
      rw [Registry.Used, Registry.put, Registry.setHandler, testBit_bitSet]
      simp
    exact ⟨hused, by simp [Registry.put, Registry.setHandler]⟩
  · have hne : j.val ≠ i.val := fun h => hj (Fin.ext h)
    have hused : (r.put i handler).Used j ↔ r.Used j := by
      rw [Registry.Used, Registry.put, Registry.setHandler, testBit_bitSet, Registry.Used]
      simp [hj]
    rw [Function.update_of_ne hj]
    simp only [Registry.slot, hused]
    simp [Registry.put, Registry.setHandler, hne]

/-- The slots of a table hold distinct types. -/
theorem distinct_of_slot {r' : Registry T C} {t : SlotTable 16 (Option T) (Option C)}
    (h : r'.slot = t.slot) : r'.Distinct := by
  intro i j hi hj hij
  have hsi : r'.slot i = some (_, _) := slot_eq_some.mpr ⟨hi, rfl, rfl⟩
  have hsj : r'.slot j = some (_, _) := slot_eq_some.mpr ⟨hj, rfl, rfl⟩
  rw [h] at hsi hsj
  exact t.distinct i j _ _ hsi hsj hij

variable [DecidableEq T]

/-- `find_handler` is the search in the table. -/
theorem findHandler_eq (h : r.Distinct) (type : Option T) :
    findHandler r type = toIdx ((r.table h).find type) := by
  have hpred : (fun i : Fin 16 => bitRead r.handlersUsageMask i = 1 && (r.handlers i).type = type)
      = fun i => ((r.table h).slot i).any fun a => a.1 = type := by
    funext i
    by_cases hu : r.Used i
    · simp [Registry.table, Registry.slot, hu, bitRead_eq_one.mpr hu]
    · have hb : bitRead r.handlersUsageMask i ≠ 1 := mt bitRead_eq_one.mp hu
      simp [Registry.table, Registry.slot, hu, hb]
  unfold findHandler SlotTable.find
  rw [hpred]
  cases (List.finRange 16).find? fun i => ((r.table h).slot i).any fun a => a.1 = type <;> rfl

/-- **All that `add_handler` can do**: put the new entry into the first free slot, or fail because
the type has a slot already or all slots are in use. -/
theorem addHandler_cases (h : r.Distinct) (type : Option T) (callback : Option C) :
    (∃ i, ∃ hf : (r.table h).find type = none, ∃ h' : (r.put i ⟨callback, type⟩).Distinct,
      (r.table h).free = some i ∧
      addHandler r type callback = (true, r.put i ⟨callback, type⟩) ∧
      (r.put i ⟨callback, type⟩).table h' = (r.table h).put i type callback hf) ∨
    (((r.table h).find type ≠ none ∨ (r.table h).free = none) ∧
      addHandler r type callback = (false, r)) := by
  have hrun : addHandler r type callback =
      if ((r.table h).find type).isSome then (false, r)
      else
        match getUnusedIdx r with
        | (idx, r) =>
          if idxValid idx then (true, r.setHandler idx ⟨callback, type⟩) else (false, r) := by
    rw [addHandler, findHandler_eq h, idxValid_toIdx]
  rw [getUnusedIdx_eq h] at hrun
  by_cases hf : (r.table h).find type = none
  · rw [hf] at hrun
    cases hfree : (r.table h).free with
    | none =>
      rw [hfree] at hrun
      exact Or.inr ⟨Or.inr rfl, hrun⟩
    | some i =>
      rw [hfree] at hrun
      simp only [idxValid_toIdx, Option.isSome_some, if_true] at hrun
      have hslot : (r.put i ⟨callback, type⟩).slot = ((r.table h).put i type callback hf).slot :=
        slot_put i _
      exact Or.inl ⟨i, hf, distinct_of_slot hslot, rfl, hrun, SlotTable.ext hslot⟩
  · rw [if_pos (Option.isSome_iff_ne_none.mpr hf)] at hrun
    exact Or.inr ⟨Or.inl hf, hrun⟩

/-! ## The partial map -/

/-- The registry stands for the map. -/
def Refines (r : Registry T C) (M : PMap (Option T) (Option C)) : Prop :=
  ∃ h : r.Distinct, (r.table h).toMap = M

/-- The map after a call, with room for 16 entries. -/
noncomputable def Call.applyMap (M : PMap (Option T) (Option C)) : Call T C → PMap (Option T) (Option C)
  | .add type callback => M.extend 16 type callback
  | .clear => PMap.empty

/-- The map after a sequence of calls. -/
noncomputable def mapAfter (calls : List (Call T C)) : PMap (Option T) (Option C) :=
  calls.foldl Call.applyMap PMap.empty

/-- The number of set bits. -/
def setBits (m : UInt16) : Nat :=
  ((List.finRange 16).filter fun i : Fin 16 => m.toNat.testBit i).length

/-- Nothing is registered at the start, or after `clear_handlers`. -/
theorem refines_empty {r : Registry T C} (hmask : r.handlersUsageMask = 0) :
    Refines r PMap.empty := by
  have hused : ∀ i, ¬ r.Used i := by
    intro i hi
    rw [Registry.Used, hmask, UInt16.toNat_zero, Nat.zero_testBit] at hi
    exact absurd hi (by simp)
  refine ⟨fun i j hi => absurd hi (hused i), ?_⟩
  funext type
  rw [PMap.empty, SlotTable.toMap_eq_none, SlotTable.find_eq_none]
  intro i v hv
  exact hused i (slot_eq_some.mp hv).1

/-- When `add_handler` answers `true`, and what it does to the map. -/
theorem addHandler_refines {M : PMap (Option T) (Option C)} (h : Refines r M) (type : Option T)
    (callback : Option C) :
    ((addHandler r type callback).1 = true ↔ M type = none ∧ M.size < 16) ∧
      Refines (addHandler r type callback).2 (M.extend 16 type callback) := by
  obtain ⟨hd, rfl⟩ := h
  have hroom : ((r.table hd).toMap type = none ∧ (r.table hd).toMap.size < 16) ↔
      (r.table hd).find type = none ∧ ∃ i, (r.table hd).free = some i :=
    and_congr SlotTable.toMap_eq_none SlotTable.free_isSome.symm
  rcases addHandler_cases hd type callback with ⟨i, hf, hd', hfree, hrun, htable⟩ | ⟨hno, hrun⟩
  · have hpos := hroom.mpr ⟨hf, i, hfree⟩
    rw [hrun, PMap.extend_of_room callback hpos]
    refine ⟨iff_of_true rfl hpos, hd', ?_⟩
    rw [htable, SlotTable.toMap_put (SlotTable.slot_of_free hfree)]
  · have hneg : ¬ ((r.table hd).find type = none ∧ ∃ i, (r.table hd).free = some i) := by
      rintro ⟨hf, i, hi⟩
      rcases hno with h | h
      · exact h hf
      · rw [h] at hi
        exact absurd hi (by simp)
    rw [hrun, PMap.extend_of_no_room callback (mt hroom.mp hneg)]
    exact ⟨iff_of_false (by simp) (mt hroom.mp hneg), hd, rfl⟩

/-- **After any calls the registry stands for the map that the calls make.** -/
theorem runCalls_refines (calls : List (Call T C)) : Refines (runCalls calls) (mapAfter calls) := by
  induction calls using List.reverseRecOn with
  | nil => exact refines_empty rfl
  | append_singleton calls call ih =>
    rw [runCalls, mapAfter, List.foldl_append, List.foldl_append]
    cases call with
    | add type callback => exact (addHandler_refines ih type callback).2
    | clear => exact refines_empty rfl

/-- The first handler is always taken. -/
theorem mapAfter_single (type : Option T) (callback : Option C) :
    mapAfter [.add type callback] = Function.update PMap.empty type (some callback) :=
  PMap.extend_of_room callback ⟨rfl, by rw [PMap.size_empty]; decide⟩

omit [DecidableEq T] in
/-- The number of slots in use is the number of set bits. -/
theorem used_card (hd : r.Distinct) : (r.table hd).used.card = setBits r.handlersUsageMask := by
  have hfin : (r.table hd).used
      = ((List.finRange 16).filter fun i : Fin 16 =>
          r.handlersUsageMask.toNat.testBit i).toFinset := by
    ext i
    rw [SlotTable.mem_used, List.mem_toFinset, List.mem_filter]
    constructor
    · rintro ⟨a, ha⟩
      exact ⟨List.mem_finRange i, (slot_eq_some.mp ha).1⟩
    · rintro ⟨-, hi⟩
      exact ⟨((r.handlers i).type, (r.handlers i).callback), slot_eq_some.mpr ⟨hi, rfl, rfl⟩⟩
  rw [hfin, List.toFinset_card_of_nodup ((List.nodup_finRange 16).filter _)]
  rfl

/-- `find_handler` on an entry of the map. -/
theorem findHandler_of_mem {M : PMap (Option T) (Option C)} (h : Refines r M) {type : Option T}
    {callback : Option C} (hm : M type = some callback) :
    ∃ i : Fin 16, findHandler r type = i.val ∧ r.Used i ∧ (r.handlers i).type = type ∧
      (r.handlers i).callback = callback := by
  obtain ⟨hd, rfl⟩ := h
  obtain ⟨i, hi⟩ := SlotTable.toMap_eq_some.mp hm
  refine ⟨i, ?_, slot_eq_some.mp hi⟩
  rw [findHandler_eq hd, SlotTable.find_eq_some.mpr ⟨callback, hi⟩]
  rfl

theorem findHandler_of_notMem {M : PMap (Option T) (Option C)} (h : Refines r M) {type : Option T}
    (hm : M type = none) : findHandler r type = -1 := by
  obtain ⟨hd, rfl⟩ := h
  rw [findHandler_eq hd, SlotTable.toMap_eq_none.mp hm]
  rfl

/-- One more entry moves and changes no other. -/
theorem addHandler_frame (hd : r.Distinct) {type : Option T} {callback : Option C}
    (hadd : (addHandler r type callback).1 = true) {type' : Option T} (hne : type' ≠ type) :
    findHandler (addHandler r type callback).2 type' = findHandler r type' ∧
      ∀ i : Fin 16, findHandler r type' = i.val →
        (addHandler r type callback).2.handlers i = r.handlers i := by
  rcases addHandler_cases hd type callback with ⟨i, hf, hd', hfree, hrun, htable⟩ | ⟨-, hrun⟩
  · have hnone := SlotTable.slot_of_free hfree
    rw [hrun]
    refine ⟨by rw [findHandler_eq hd', findHandler_eq hd, htable, SlotTable.find_put_of_ne hnone hne],
      fun j hj => ?_⟩
    have hji : j ≠ i := by
      rintro rfl
      rw [findHandler_eq hd] at hj
      cases hfj : (r.table hd).find type' with
      | none =>
        rw [hfj, toIdx] at hj
        omega
      | some k =>
        rw [hfj, toIdx, Int.natCast_inj] at hj
        obtain rfl : k = j := Fin.ext hj
        obtain ⟨v, hv⟩ := SlotTable.find_eq_some.mp hfj
        rw [hnone] at hv
        exact absurd hv (by simp)
    have hval : (j.val : Int) ≠ i.val := fun h => hji (Fin.ext (Int.natCast_inj.mp h))
    simp only [Registry.put, Registry.setHandler, if_neg hval]
  · rw [hrun] at hadd
    exact absurd hadd (by simp)

/-- **The registry is a partial map with room for 16 entries**, over every history of calls: `M` is
the map after the calls so far. -/
theorem registry_refines_map (calls : List (Call T C)) :
    let r := runCalls calls
    let M := mapAfter calls
    (∀ type callback, (addHandler r type callback).1 = true ↔ M type = none ∧ M.size < 16) ∧
    (∀ type callback, (addHandler r type callback).1 = true →
      mapAfter (calls ++ [.add type callback]) = Function.update M type (some callback)) ∧
    (∀ type callback, (addHandler r type callback).1 = false →
      (addHandler r type callback).2 = r) ∧
    mapAfter (calls ++ [.clear]) = PMap.empty ∧
    (∀ i j : Fin 16, bitRead r.handlersUsageMask i = 1 → bitRead r.handlersUsageMask j = 1 →
      (r.handlers i).type = (r.handlers j).type → i = j) ∧
    M.size = setBits r.handlersUsageMask ∧
    (∀ type callback, M type = some callback → ∃ i : Fin 16, findHandler r type = i.val ∧
      bitRead r.handlersUsageMask i = 1 ∧ (r.handlers i).type = type ∧
      (r.handlers i).callback = callback) ∧
    (∀ type, M type = none → findHandler r type = -1) ∧
    (∀ type callback, (addHandler r type callback).1 = true → ∀ type' ≠ type,
      findHandler (addHandler r type callback).2 type' = findHandler r type' ∧
      ∀ i : Fin 16, findHandler r type' = i.val →
        (addHandler r type callback).2.handlers i = r.handlers i) := by
  intro r M
  have href : Refines r M := runCalls_refines calls
  obtain ⟨hd, hM⟩ := id href
  have hadd := fun type callback => (addHandler_refines href type callback).1
  refine ⟨hadd, fun type callback h => ?_, fun type callback h => ?_, ?_, fun i j hi hj => ?_, ?_,
    fun type callback h => ?_, fun type h => findHandler_of_notMem href h,
    fun type callback h type' hne => addHandler_frame hd h hne⟩
  · rw [mapAfter, List.foldl_append]
    exact PMap.extend_of_room callback ((hadd type callback).mp h)
  · rcases addHandler_cases hd type callback with ⟨i, -, -, -, hrun, -⟩ | ⟨-, hrun⟩
    · rw [hrun] at h
      exact absurd h (by simp)
    · rw [hrun]
  · rw [mapAfter, List.foldl_append]
    rfl
  · exact hd i j (bitRead_eq_one.mp hi) (bitRead_eq_one.mp hj)
  · rw [← hM, SlotTable.size_toMap, used_card hd]
  · obtain ⟨i, h1, h2, h3, h4⟩ := findHandler_of_mem href h
    exact ⟨i, h1, bitRead_eq_one.mpr h2, h3, h4⟩

end EmbeddedTestbench.ProtoBuff
