import Mathlib.Data.Fintype.Card
import Mathlib.Data.List.FinRange
import Mathlib.Data.Set.Card
import Mathlib.Logic.Function.Basic

/-!
# Partial maps kept in a fixed number of slots

A `SlotTable n K V` holds entries of a partial map from `K` to `V` in `n` slots, each key in one
slot at most. A key is found by a search through the slots, and a new entry goes into the first
free one. `toMap` is the partial map it stands for.

Headlines:
* **`size_toMap`**: the map has as many entries as slots are in use.
* **`free_isSome`**: there is a free slot exactly when the map has less than `n` entries.
* **`toMap_put`**: an entry put into a free slot extends the map.
* `find_put_of_ne`, `slot_put_of_find`: it moves and changes no other entry.
-/

namespace EmbeddedTestbench.Lib

/-- A partial map. -/
abbrev PMap (K V : Type) := K → Option V

namespace PMap

variable {K V : Type}

/-- No entries. -/
def empty : PMap K V := fun _ => none

/-- The keys with an entry. -/
def dom (M : PMap K V) : Set K := {k | M k ≠ none}

/-- The number of entries. -/
noncomputable def size (M : PMap K V) : Nat := M.dom.ncard

theorem size_empty : (empty : PMap K V).size = 0 := by
  simp [size, dom, empty]

/-- One more entry, when the key is new and there is room for it. -/
noncomputable def extend [DecidableEq K] (cap : Nat) (M : PMap K V) (k : K) (v : V) : PMap K V :=
  open Classical in if M k = none ∧ M.size < cap then Function.update M k (some v) else M

variable [DecidableEq K] {cap : Nat} {M : PMap K V} {k : K}

theorem extend_of_room (v : V) (h : M k = none ∧ M.size < cap) :
    M.extend cap k v = Function.update M k (some v) := if_pos h

theorem extend_of_no_room (v : V) (h : ¬ (M k = none ∧ M.size < cap)) : M.extend cap k v = M :=
  if_neg h

/-- The keys of the extended map. -/
theorem extend_ne_none_iff (k' : K) (v : V) :
    M.extend cap k v k' ≠ none ↔ M k' ≠ none ∨ k' = k ∧ M k = none ∧ M.size < cap := by
  by_cases hroom : M k = none ∧ M.size < cap
  · rw [extend_of_room v hroom]
    by_cases hk : k' = k
    · rw [hk, Function.update_self]
      exact iff_of_true (Option.some_ne_none v) (Or.inr ⟨rfl, hroom⟩)
    · rw [Function.update_of_ne hk]
      exact ⟨Or.inl, fun h => h.resolve_right fun hnew => hk hnew.1⟩
  · rw [extend_of_no_room v hroom]
    exact ⟨Or.inl, fun h => h.resolve_right fun hnew => hroom hnew.2⟩

end PMap

/-- Entries in `n` slots, with no key twice. -/
@[ext] structure SlotTable (n : Nat) (K V : Type) where
  slot : Fin n → Option (K × V)
  distinct : ∀ i j a b, slot i = some a → slot j = some b → a.1 = b.1 → i = j

namespace SlotTable

variable {n : Nat} {K V : Type} [DecidableEq K]

/-- The slot of a key. -/
def find (t : SlotTable n K V) (k : K) : Option (Fin n) :=
  (List.finRange n).find? fun i => (t.slot i).any fun a => a.1 = k

/-- The first free slot. -/
def free (t : SlotTable n K V) : Option (Fin n) :=
  (List.finRange n).find? fun i => (t.slot i).isNone

/-- The partial map that the slots hold. -/
def toMap (t : SlotTable n K V) : PMap K V := fun k =>
  (t.find k).bind fun i => (t.slot i).map Prod.snd

/-- The slots in use. -/
def used (t : SlotTable n K V) : Finset (Fin n) := Finset.univ.filter fun i => (t.slot i).isSome

/-! ## Searching -/

theorem any_key {o : Option (K × V)} {k : K} :
    (o.any fun a => a.1 = k) = true ↔ ∃ v, o = some (k, v) := by
  cases o with
  | none => simp
  | some a =>
    rw [Option.any_some, decide_eq_true_eq]
    constructor
    · rintro rfl
      exact ⟨a.2, rfl⟩
    · rintro ⟨v, hv⟩
      rw [Option.some.inj hv]

theorem find_eq_some {t : SlotTable n K V} {k : K} {i : Fin n} :
    t.find k = some i ↔ ∃ v, t.slot i = some (k, v) := by
  constructor
  · intro h
    have hi := List.find?_some h
    exact any_key.mp hi
  · rintro ⟨v, hv⟩
    cases hf : t.find k with
    | none => exact absurd (any_key.mpr ⟨v, hv⟩) (List.find?_eq_none.mp hf i (List.mem_finRange i))
    | some j =>
      have hj := List.find?_some hf
      obtain ⟨v', hv'⟩ := any_key.mp hj
      rw [t.distinct j i _ _ hv' hv rfl]

theorem find_eq_none {t : SlotTable n K V} {k : K} :
    t.find k = none ↔ ∀ i v, t.slot i ≠ some (k, v) := by
  constructor
  · intro h i v hv
    rw [find_eq_some.mpr ⟨v, hv⟩] at h
    exact absurd h (by simp)
  · intro h
    cases hf : t.find k with
    | none => rfl
    | some i =>
      obtain ⟨v, hv⟩ := find_eq_some.mp hf
      exact absurd hv (h i v)

theorem toMap_eq_some {t : SlotTable n K V} {k : K} {v : V} :
    t.toMap k = some v ↔ ∃ i, t.slot i = some (k, v) := by
  unfold toMap
  constructor
  · intro h
    obtain ⟨i, hi, hv⟩ := Option.bind_eq_some_iff.mp h
    obtain ⟨v', hv'⟩ := find_eq_some.mp hi
    rw [hv', Option.map_some, Option.some.injEq] at hv
    exact ⟨i, hv ▸ hv'⟩
  · rintro ⟨i, hi⟩
    rw [find_eq_some.mpr ⟨v, hi⟩, Option.bind_some, hi, Option.map_some]

theorem toMap_eq_none {t : SlotTable n K V} {k : K} : t.toMap k = none ↔ t.find k = none := by
  rw [find_eq_none]
  constructor
  · intro h i v hv
    rw [toMap_eq_some.mpr ⟨i, hv⟩] at h
    exact absurd h (by simp)
  · intro h
    cases hm : t.toMap k with
    | none => rfl
    | some v =>
      obtain ⟨i, hi⟩ := toMap_eq_some.mp hm
      exact absurd hi (h i v)

/-! ## Counting -/

omit [DecidableEq K] in
theorem mem_used {t : SlotTable n K V} {i : Fin n} : i ∈ t.used ↔ ∃ a, t.slot i = some a := by
  rw [used, Finset.mem_filter, Option.isSome_iff_exists]
  exact and_iff_right (Finset.mem_univ i)

/-- **The map has as many entries as slots are in use.** -/
theorem size_toMap (t : SlotTable n K V) : t.toMap.size = t.used.card := by
  have hinj : Set.InjOn t.find t.toMap.dom := by
    intro k hk k' _ h
    obtain ⟨v, hv⟩ := Option.ne_none_iff_exists'.mp hk
    obtain ⟨i, hi⟩ := toMap_eq_some.mp hv
    obtain ⟨v', hv'⟩ := find_eq_some.mp (h ▸ find_eq_some.mpr ⟨v, hi⟩ : t.find k' = some i)
    rw [hi, Option.some.injEq, Prod.mk.injEq] at hv'
    exact hv'.1
  have himage : t.find '' t.toMap.dom = some '' (t.used : Set (Fin n)) := by
    ext o
    constructor
    · rintro ⟨k, hk, rfl⟩
      obtain ⟨v, hv⟩ := Option.ne_none_iff_exists'.mp hk
      obtain ⟨i, hi⟩ := toMap_eq_some.mp hv
      exact ⟨i, mem_used.mpr ⟨(k, v), hi⟩, (find_eq_some.mpr ⟨v, hi⟩).symm⟩
    · rintro ⟨i, hi, rfl⟩
      obtain ⟨⟨k, v⟩, hs⟩ := mem_used.mp hi
      refine ⟨k, ?_, find_eq_some.mpr ⟨v, hs⟩⟩
      rw [PMap.dom, Set.mem_ofPred_eq, toMap_eq_some.mpr ⟨i, hs⟩]
      simp
  unfold PMap.size
  rw [← hinj.ncard_image, himage,
    Set.ncard_image_of_injective _ (Option.some_injective _), Set.ncard_coe_finset]

/-- **There is a free slot exactly when the map is not full.** -/
theorem free_isSome {t : SlotTable n K V} : (∃ i, t.free = some i) ↔ t.toMap.size < n := by
  rw [size_toMap]
  constructor
  · rintro ⟨i, hi⟩
    have hnone := List.find?_some hi
    have hssub : t.used ⊂ Finset.univ :=
      Finset.ssubset_univ_iff.mpr fun hall => by
        obtain ⟨a, ha⟩ := mem_used.mp (hall ▸ Finset.mem_univ i)
        rw [ha] at hnone
        exact absurd hnone (by simp)
    calc t.used.card < (Finset.univ : Finset (Fin n)).card := Finset.card_lt_card hssub
      _ = n := Finset.card_fin n
  · intro h
    cases hf : t.free with
    | some i => exact ⟨i, rfl⟩
    | none =>
      have hall : t.used = Finset.univ := Finset.eq_univ_iff_forall.mpr fun i => by
        have := List.find?_eq_none.mp hf i (List.mem_finRange i)
        rw [mem_used]
        exact Option.ne_none_iff_exists'.mp (by simpa using this)
      rw [hall, Finset.card_fin] at h
      exact absurd h (Nat.lt_irrefl n)

omit [DecidableEq K] in
theorem slot_of_free {t : SlotTable n K V} {i : Fin n} (h : t.free = some i) : t.slot i = none := by
  simpa using List.find?_some h

/-! ## A new entry -/

/-- A new key in slot `i`. -/
def put (t : SlotTable n K V) (i : Fin n) (k : K) (v : V) (h : t.find k = none) :
    SlotTable n K V where
  slot := Function.update t.slot i (some (k, v))
  distinct := by
    intro j j' a b ha hb hab
    have hnew := find_eq_none.mp h
    by_cases hj : j = i <;> by_cases hj' : j' = i
    · rw [hj, hj']
    · rw [hj, Function.update_self, Option.some.injEq] at ha
      rw [Function.update_of_ne hj'] at hb
      have hkey : b.1 = k := by rw [← hab, ← ha]
      rw [← hkey] at hnew
      exact absurd hb (hnew j' b.2)
    · rw [hj', Function.update_self, Option.some.injEq] at hb
      rw [Function.update_of_ne hj] at ha
      have hkey : a.1 = k := by rw [hab, ← hb]
      rw [← hkey] at hnew
      exact absurd ha (hnew j a.2)
    · rw [Function.update_of_ne hj] at ha
      rw [Function.update_of_ne hj'] at hb
      exact t.distinct j j' a b ha hb hab

variable {t : SlotTable n K V} {i : Fin n} {k : K} {v : V} {h : t.find k = none}

theorem slot_put_self : (t.put i k v h).slot i = some (k, v) := Function.update_self i _ t.slot

theorem slot_put_of_ne {j : Fin n} (hj : j ≠ i) : (t.put i k v h).slot j = t.slot j :=
  Function.update_of_ne hj _ t.slot

/-- Other entries stay in their slots. -/
theorem slot_put_of_find (hi : t.slot i = none) {k' : K} {j : Fin n} (hj : t.find k' = some j) :
    (t.put i k v h).slot j = t.slot j := by
  obtain ⟨v', hv'⟩ := find_eq_some.mp hj
  refine slot_put_of_ne fun hji => ?_
  rw [hji, hi] at hv'
  exact absurd hv' (by simp)

/-- Other keys are found where they were. -/
theorem find_put_of_ne (hi : t.slot i = none) {k' : K} (hk : k' ≠ k) :
    (t.put i k v h).find k' = t.find k' := by
  cases hf : t.find k' with
  | some j =>
    obtain ⟨v', hv'⟩ := find_eq_some.mp hf
    exact find_eq_some.mpr ⟨v', (slot_put_of_find hi hf).trans hv'⟩
  | none =>
    rw [find_eq_none]
    intro j v' hv'
    by_cases hji : j = i
    · rw [hji, slot_put_self, Option.some.injEq, Prod.mk.injEq] at hv'
      exact hk hv'.1.symm
    · rw [slot_put_of_ne hji] at hv'
      exact find_eq_none.mp hf j v' hv'

/-- **A new entry extends the map.** -/
theorem toMap_put (hi : t.slot i = none) :
    (t.put i k v h).toMap = Function.update t.toMap k (some v) := by
  funext k'
  by_cases hk : k' = k
  · rw [hk, Function.update_self]
    exact toMap_eq_some.mpr ⟨i, slot_put_self⟩
  · rw [Function.update_of_ne hk]
    unfold toMap
    rw [find_put_of_ne hi hk]
    cases hf : t.find k' with
    | none => rfl
    | some j => rw [Option.bind_some, Option.bind_some, slot_put_of_find hi hf]

end SlotTable

end EmbeddedTestbench.Lib
