import Mathlib.Algebra.Ring.Nat
import Mathlib.Data.List.SplitLengths

/-!
# Cutting a list into chunks

`List.splitLengths` cuts chunks of given lengths off the front of a list, one after the other. The
lengths need not add up to the length of the list: chunks that are too short leave a rest, and a
list that is too short gives short chunks.

Headlines:
* **`flatten_splitLengths_take`**: the chunks are what the lengths cover, in order.
* **`forall_splitLengths_notMem`**: an element is in no chunk exactly when it is not covered.
* **`EndsMarked.flatten_inj`**: lists that each end with a mark can be told apart in a row.
-/

namespace EmbeddedTestbench.Lib

variable {α : Type}

theorem splitLengths_append : ∀ (ls ls' : List Nat) (l : List α),
    (ls ++ ls').splitLengths l = ls.splitLengths l ++ ls'.splitLengths (l.drop ls.sum)
  | [], _, _ => rfl
  | n :: ls, ls', l => by
    rw [List.cons_append, List.splitLengths_cons, List.splitLengths_cons,
      splitLengths_append ls ls' (l.drop n), List.drop_drop, List.sum_cons, List.cons_append]

/-- **The chunks are what the lengths cover**: nothing is lost, doubled or moved. -/
theorem flatten_splitLengths_take : ∀ (ls : List Nat) (l : List α),
    (ls.splitLengths l).flatten = l.take ls.sum
  | [], _ => rfl
  | n :: ls, l => by
    rw [List.splitLengths_cons, List.flatten_cons, flatten_splitLengths_take ls (l.drop n),
      List.sum_cons, List.take_add]

/-- **An element is in no chunk exactly when it is not covered.** -/
theorem forall_splitLengths_notMem (ls : List Nat) (l : List α) (a : α) :
    (∀ chunk ∈ ls.splitLengths l, a ∉ chunk) ↔ a ∉ l.take ls.sum := by
  rw [← flatten_splitLengths_take, List.mem_flatten]
  constructor
  · rintro h ⟨chunk, hchunk, ha⟩
    exact h chunk hchunk ha
  · intro h chunk hchunk ha
    exact h ⟨chunk, hchunk, ha⟩

/-- Every chunk of covered lengths is as long as it should be. -/
theorem splitLengths_length_mem {ls : List Nat} {l chunk : List α} (h : ls.sum ≤ l.length)
    (hchunk : chunk ∈ ls.splitLengths l) : chunk.length ∈ ls := by
  have := List.mem_map_of_mem (f := List.length) hchunk
  rwa [List.map_splitLengths_length _ _ h] at this

/-! ## Lists that end with a mark -/

variable {p : α → Prop}

/-- The last element has the mark, and no other has. -/
def EndsMarked (p : α → Prop) (l : List α) : Prop :=
  ∃ init last, l = init ++ [last] ∧ p last ∧ ∀ a ∈ init, ¬ p a

theorem EndsMarked.ne_nil {l : List α} (h : EndsMarked p l) : l ≠ [] := by
  obtain ⟨init, last, rfl, -⟩ := h
  exact List.append_ne_nil_of_right_ne_nil init (List.cons_ne_nil last [])

/-- The mark may be looked for in an image of the list. -/
theorem EndsMarked.of_map {β : Type} {f : β → α} {l : List β} (h : EndsMarked p (l.map f)) :
    EndsMarked (fun b => p (f b)) l := by
  obtain ⟨init, last, hmap, hlast, hinit⟩ := h
  obtain ⟨bs, cs, rfl, rfl, hcs⟩ := List.map_eq_append_iff.mp hmap
  obtain ⟨c, rest, rfl, rfl, hrest⟩ := List.map_eq_cons_iff.mp hcs
  obtain rfl := List.map_eq_nil_iff.mp hrest
  exact ⟨bs, c, rfl, hlast, fun b hb => hinit (f b) (List.mem_map_of_mem hb)⟩

/-- The first of two lists in a row ends at the first mark. -/
theorem EndsMarked.append_inj {l l' r r' : List α} (h : EndsMarked p l) (h' : EndsMarked p l')
    (heq : l ++ r = l' ++ r') : l = l' ∧ r = r' := by
  obtain ⟨init, last, rfl, hlast, hinit⟩ := h
  obtain ⟨init', last', rfl, hlast', hinit'⟩ := h'
  induction init generalizing init' with
  | nil =>
    cases init' with
    | nil =>
      obtain ⟨rfl, rfl⟩ := List.cons.inj heq
      exact ⟨rfl, rfl⟩
    | cons a init' =>
      obtain ⟨rfl, -⟩ := List.cons.inj heq
      exact absurd hlast (hinit' last List.mem_cons_self)
  | cons a init ih =>
    cases init' with
    | nil =>
      obtain ⟨rfl, -⟩ := List.cons.inj heq
      exact absurd hlast' (hinit a List.mem_cons_self)
    | cons a' init' =>
      obtain ⟨rfl, htail⟩ := List.cons.inj heq
      obtain ⟨hl, hr⟩ := ih (fun b hb => hinit b (List.mem_cons_of_mem a hb)) init' htail
        fun b hb => hinit' b (List.mem_cons_of_mem a hb)
      exact ⟨congrArg (List.cons a) hl, hr⟩

/-- **Lists that end with a mark can be told apart in a row.** -/
theorem EndsMarked.flatten_inj : ∀ {ls ls' : List (List α)}, (∀ l ∈ ls, EndsMarked p l) →
    (∀ l ∈ ls', EndsMarked p l) → ls.flatten = ls'.flatten → ls = ls'
  | [], [], _, _, _ => rfl
  | [], l :: ls', _, h', heq => by
    have hnil : l = [] := (List.append_eq_nil_iff.mp heq.symm).1
    exact absurd hnil (h' l List.mem_cons_self).ne_nil
  | l :: ls, [], h, _, heq => by
    have hnil : l = [] := (List.append_eq_nil_iff.mp heq).1
    exact absurd hnil (h l List.mem_cons_self).ne_nil
  | l :: ls, l' :: ls', h, h', heq => by
    rw [List.flatten_cons, List.flatten_cons] at heq
    obtain ⟨rfl, hrest⟩ := (h l List.mem_cons_self).append_inj (h' l' List.mem_cons_self) heq
    rw [EndsMarked.flatten_inj (fun m hm => h m (List.mem_cons_of_mem l hm))
      (fun m hm => h' m (List.mem_cons_of_mem l hm)) hrest]

end EmbeddedTestbench.Lib
