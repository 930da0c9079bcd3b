import Mathlib.Algebra.Ring.Parity
import Mathlib.Data.Finset.Card
import Mathlib.Data.Nat.Count
import Mathlib.Dynamics.PeriodicPts.Defs

/-!
# Cyclic redundancy checks, bit by bit

A register of `w` bits takes the bits of a message one after the other, from the most significant
one, and a bit that is shifted out adds the generator polynomial. All of this is linear over
exclusive or, so whether two messages of one length have the same check value is a matter of the
positions in which they differ.

Headlines:
* **`register_eq_iff`**: equal check values, and the register of the difference.
* **`register_ne_zero_of_odd`**: a generator with the factor `x + 1` shows every odd number of
  wrong bits.
* **`register_ne_zero_of_burst`**: every generator shows wrong bits that are all within `w`.
* **`register_eq_zero_iff_of_two`**: two wrong bits are missed where their distance is a multiple
  of the period of the generator.
-/

namespace EmbeddedTestbench.Lib.Crc

/-- A generator polynomial without its leading term `x ^ w`. Its constant term is one. -/
structure Generator (w : Nat) where
  poly : BitVec w
  constant : poly.getLsbD 0 = true

variable {w : Nat} (g : Generator w)

/-- The register is shifted by one, which multiplies it by `x`. -/
def step (r : BitVec w) : BitVec w := if r.msb then r <<< 1 ^^^ g.poly else r <<< 1

/-- The register takes a bit of the message. -/
def feed (r : BitVec w) (bit : Bool) : BitVec w := step g r ^^^ bif bit then g.poly else 0#w

/-- The check value of a message. -/
def register (bits : List Bool) : BitVec w := bits.foldl (feed g) 0#w

/-- The positions of the ones of a message. -/
def ones (bits : List Bool) : Finset Nat :=
  (Finset.range bits.length).filter fun i => bits[i]? = some true

theorem mem_ones {bits : List Bool} {i : Nat} : i ∈ ones bits ↔ bits[i]? = some true := by
  rw [ones, Finset.mem_filter, Finset.mem_range, and_iff_right_iff_imp]
  intro h
  obtain ⟨hi, -⟩ := List.getElem?_eq_some_iff.mp h
  exact hi

theorem card_ones (bits : List Bool) : (ones bits).card = bits.count true := by
  have hcount : ∀ n, Nat.count (fun i => bits[i]? = some true) n = (bits.take n).count true := by
    intro n
    induction n with
    | zero => rfl
    | succ n ih =>
      rw [Nat.count_succ, ih, List.take_add_one, List.count_append]
      rcases bits[n]? with - | - | - <;> rfl
  rw [ones, ← Nat.count_eq_card_filter_range, hcount, List.take_length]

/-! ## Linearity -/

theorem step_zero : step g 0#w = 0#w := by
  simp [step]

theorem step_xor (a b : BitVec w) : step g (a ^^^ b) = step g a ^^^ step g b := by
  unfold step
  rw [BitVec.shiftLeft_xor_distrib, BitVec.msb_xor]
  cases a.msb <;> cases b.msb
  · rfl
  · exact BitVec.xor_assoc _ _ _
  · show a <<< 1 ^^^ b <<< 1 ^^^ g.poly = a <<< 1 ^^^ g.poly ^^^ b <<< 1
    ac_rfl
  · show a <<< 1 ^^^ b <<< 1 = a <<< 1 ^^^ g.poly ^^^ (b <<< 1 ^^^ g.poly)
    rw [BitVec.xor_assoc, ← BitVec.xor_assoc g.poly, BitVec.xor_comm g.poly, BitVec.xor_assoc,
      BitVec.xor_self, BitVec.xor_zero]

theorem iterate_step_zero : ∀ n : Nat, (step g)^[n] 0#w = 0#w
  | 0 => rfl
  | n + 1 => by rw [Function.iterate_succ_apply, step_zero, iterate_step_zero n]

theorem iterate_step_xor :
    ∀ (n : Nat) (a b : BitVec w), (step g)^[n] (a ^^^ b) = (step g)^[n] a ^^^ (step g)^[n] b
  | 0, _, _ => rfl
  | n + 1, a, b => by
    rw [Function.iterate_succ_apply, step_xor, iterate_step_xor n]
    rfl

/-- A message behind a register: the register moves on, and the message is on its own. -/
theorem foldl_feed : ∀ (bits : List Bool) (r : BitVec w),
    bits.foldl (feed g) r = (step g)^[bits.length] r ^^^ register g bits
  | [], r => (BitVec.xor_zero).symm
  | bit :: bits, r => by
    have hfirst : feed g r bit = step g r ^^^ feed g 0#w bit := by
      rw [feed, feed, step_zero, BitVec.zero_xor]
    rw [register, List.foldl_cons, List.foldl_cons, foldl_feed bits, foldl_feed bits (feed g 0#w _),
      hfirst, iterate_step_xor, List.length_cons, Function.iterate_succ_apply, BitVec.xor_assoc]

theorem register_append (p q : List Bool) :
    register g (p ++ q) = (step g)^[q.length] (register g p) ^^^ register g q := by
  rw [register, List.foldl_append, foldl_feed]
  rfl

theorem register_singleton (bit : Bool) : register g [bit] = bif bit then g.poly else 0#w := by
  rw [register, List.foldl_cons, List.foldl_nil, feed, step_zero, BitVec.zero_xor]

theorem register_cons (bit : Bool) (bits : List Bool) : register g (bit :: bits)
    = (step g)^[bits.length] (bif bit then g.poly else 0#w) ^^^ register g bits := by
  rw [← register_singleton, ← register_append, List.singleton_append]

theorem register_eq_zero_of_notMem : ∀ {bits : List Bool}, true ∉ bits → register g bits = 0#w
  | [], _ => rfl
  | true :: _, h => absurd List.mem_cons_self h
  | false :: bits, h => by
    rw [register_cons, register_eq_zero_of_notMem fun hmem => h (List.mem_cons_of_mem _ hmem),
      cond_false, iterate_step_zero, BitVec.xor_zero]

theorem register_zipWith_xor : ∀ {p q : List Bool}, p.length = q.length →
    register g (List.zipWith xor p q) = register g p ^^^ register g q
  | [], [], _ => (BitVec.xor_self).symm
  | a :: p, b :: q, h => by
    have hlen : p.length = q.length := Nat.succ.inj h
    have hbit : (bif a ^^ b then g.poly else 0#w)
        = (bif a then g.poly else 0#w) ^^^ bif b then g.poly else 0#w := by
      cases a <;> cases b <;> simp
    rw [List.zipWith_cons_cons, register_cons, register_cons, register_cons,
      register_zipWith_xor hlen, List.length_zipWith, hlen, Nat.min_self, hbit, iterate_step_xor]
    ac_rfl

/-- **Two messages of one length have the same check value** when their difference has the check
value zero. -/
theorem register_eq_iff {p q : List Bool} (h : p.length = q.length) :
    register g p = register g q ↔ register g (List.zipWith xor p q) = 0#w := by
  rw [register_zipWith_xor g h, BitVec.xor_eq_zero_iff]

/-! ## An odd number of wrong bits -/

/-- Whether the number of ones below bit `n` is odd. -/
def parityBelow (r : BitVec w) : Nat → Bool
  | 0 => false
  | n + 1 => parityBelow r n ^^ r.getLsbD n

/-- Whether the number of ones is odd: the value of the polynomial at one. -/
def parity (r : BitVec w) : Bool := parityBelow r w

theorem parityBelow_xor (a b : BitVec w) :
    ∀ n : Nat, parityBelow (a ^^^ b) n = (parityBelow a n ^^ parityBelow b n)
  | 0 => rfl
  | n + 1 => by
    rw [parityBelow, parityBelow_xor a b n, BitVec.getLsbD_xor, parityBelow, parityBelow,
      Bool.xor_assoc, Bool.xor_assoc, Bool.xor_left_comm (parityBelow b n)]

theorem getLsbD_shiftLeft_one (r : BitVec w) {n : Nat} (h : n + 1 < w) :
    (r <<< 1).getLsbD (n + 1) = r.getLsbD n := by
  rw [BitVec.getLsbD_shiftLeft, decide_eq_true h, decide_eq_false (by omega), Nat.add_sub_cancel]
  rfl

theorem parityBelow_shiftLeft (r : BitVec w) :
    ∀ n : Nat, n < w → parityBelow (r <<< 1) (n + 1) = parityBelow r n
  | 0, _ => by simp [parityBelow]
  | n + 1, h => by
    rw [parityBelow, parityBelow_shiftLeft r n (by omega), parityBelow, getLsbD_shiftLeft_one r h]

theorem parity_zero : parity 0#w = false := by
  have : ∀ n : Nat, parityBelow 0#w n = false := by
    intro n
    induction n with
    | zero => rfl
    | succ n ih => rw [parityBelow, ih, BitVec.getLsbD_zero, Bool.false_xor]
  exact this w

/-- A shift loses the highest bit. -/
theorem parity_shiftLeft (r : BitVec w) : parity r = (parity (r <<< 1) ^^ r.msb) := by
  cases w with
  | zero => rw [Subsingleton.elim (r <<< 1) r, BitVec.msb_zero_length, Bool.xor_false]
  | succ n =>
    rw [parity, parity, parityBelow_shiftLeft r n (Nat.lt_succ_self n), parityBelow,
      BitVec.msb_eq_getLsbD_last, Nat.add_sub_cancel]

variable {g}

section Odd

/- `x ^ w + g.poly` has an even number of terms: it has the factor `x + 1`. -/
variable (hg : parity g.poly = true)
include hg

/-- A step keeps the parity. -/
theorem parity_step (r : BitVec w) : parity (step g r) = parity r := by
  have hshift := parity_shiftLeft r
  unfold step
  cases hmsb : r.msb
  · rwa [hmsb, Bool.xor_false, eq_comm] at hshift
  · rw [hmsb] at hshift
    rw [if_pos rfl, parity, parityBelow_xor, hshift, ← hg]
    rfl

theorem parity_iterate_step : ∀ (n : Nat) (r : BitVec w), parity ((step g)^[n] r) = parity r
  | 0, _ => rfl
  | n + 1, r => by rw [Function.iterate_succ_apply, parity_iterate_step n, parity_step hg]

theorem parity_register : ∀ bits : List Bool,
    parity (register g bits) = decide (Odd (bits.count true))
  | [] => parity_zero
  | bit :: bits => by
    rw [register_cons, parity, parityBelow_xor, ← parity, ← parity, parity_iterate_step hg,
      parity_register bits]
    cases bit
    · rw [cond_false, parity_zero, Bool.false_xor, List.count_cons_of_ne (by decide)]
    · rw [cond_true, hg, List.count_cons_self, Bool.true_xor, ← decide_not]
      exact decide_eq_decide.mpr Nat.odd_add_one.symm

/-- **An odd number of wrong bits is shown** by a generator with the factor `x + 1`. -/
theorem register_ne_zero_of_odd {bits : List Bool} (h : Odd (ones bits).card) :
    register g bits ≠ 0#w := by
  intro hzero
  rw [card_ones] at h
  have hparity := parity_register hg bits
  rw [hzero, parity_zero, decide_eq_true h] at hparity
  contradiction

end Odd

/-! ## Wrong bits close together -/

/-- The constant term is one, so no step loses a bit. -/
theorem step_eq_zero {r : BitVec w} (h : step g r = 0#w) : r = 0#w := by
  have hw : 0 < w := BitVec.lt_of_getLsbD g.constant
  cases hmsb : r.msb with
  | true =>
    rw [step, if_pos hmsb] at h
    have hbit := congrArg (fun v => v.getLsbD 0) h
    simp [g.constant] at hbit
  | false =>
    rw [step, if_neg (by rw [hmsb]; decide)] at h
    refine BitVec.eq_of_getLsbD_eq fun i hi => ?_
    rw [BitVec.getLsbD_zero]
    by_cases hlast : i + 1 < w
    · rw [← getLsbD_shiftLeft_one r hlast, h, BitVec.getLsbD_zero]
    · rw [BitVec.msb_eq_getLsbD_last] at hmsb
      have : i = w - 1 := by omega
      rwa [this]

theorem iterate_step_eq_zero : ∀ {n : Nat} {r : BitVec w}, (step g)^[n] r = 0#w → r = 0#w
  | 0, _, h => h
  | n + 1, _, h => step_eq_zero (iterate_step_eq_zero (n := n) h)

/-- The number that the bits of a message spell, the first one the most significant. -/
def word : List Bool → BitVec w
  | [] => 0#w
  | bit :: bits => (bif bit then BitVec.twoPow w bits.length else 0#w) ^^^ word bits

theorem step_twoPow {i : Nat} (h : i + 1 < w) :
    step g (BitVec.twoPow w i) = BitVec.twoPow w (i + 1) := by
  have hmsb : (BitVec.twoPow w i).msb = false := by
    rw [BitVec.msb_twoPow]
    have : i ≠ w - 1 := by omega
    simp [this]
  rw [step, if_neg (by rw [hmsb]; decide), BitVec.twoPow_eq, BitVec.twoPow_eq, BitVec.shiftLeft_add]

/-- A bit that is shifted out leaves the generator. -/
theorem iterate_step_twoPow : ∀ {i j : Nat}, i + j + 1 = w →
    (step g)^[j + 1] (BitVec.twoPow w i) = g.poly
  | i, 0, h => by
    have hmsb : (BitVec.twoPow w i).msb = true := by
      rw [BitVec.msb_twoPow]
      rw [decide_eq_true (by omega : i < w), decide_eq_true (by omega : i = w - 1)]
      rfl
    have hout : BitVec.twoPow w i <<< 1 = 0#w := by
      rw [BitVec.twoPow_eq, ← BitVec.shiftLeft_add]
      exact BitVec.shiftLeft_eq_zero (by omega)
    rw [Function.iterate_one, step, if_pos hmsb, hout, BitVec.zero_xor]
  | i, j + 1, h => by
    rw [Function.iterate_succ_apply, step_twoPow (by omega), iterate_step_twoPow (by omega)]

/-- A message of at most `w` bits, through the register or put into it at once. -/
theorem iterate_step_word : ∀ {bits : List Bool}, bits.length ≤ w →
    (step g)^[w] (word bits) = register g bits
  | [], _ => iterate_step_zero g w
  | bit :: bits, h => by
    rw [List.length_cons] at h
    have hfirst : (step g)^[w] (bif bit then BitVec.twoPow w bits.length else 0#w)
        = (step g)^[bits.length] (bif bit then g.poly else 0#w) := by
      cases bit
      · rw [cond_false, cond_false, iterate_step_zero, iterate_step_zero]
      · obtain ⟨j, hj⟩ : ∃ j, bits.length + j + 1 = w := ⟨w - bits.length - 1, by omega⟩
        calc (step g)^[w] (BitVec.twoPow w bits.length)
            = (step g)^[bits.length + (j + 1)] (BitVec.twoPow w bits.length) :=
              congrArg (fun n => (step g)^[n] _) (by omega)
          _ = (step g)^[bits.length] g.poly := by
            rw [Function.iterate_add_apply, iterate_step_twoPow hj]
    rw [word, iterate_step_xor, hfirst, iterate_step_word (by omega), register_cons]

theorem word_getLsbD : ∀ {bits : List Bool} {i : Nat}, bits.length ≤ i →
    (word bits : BitVec w).getLsbD i = false
  | [], _, _ => BitVec.getLsbD_zero
  | bit :: bits, i, h => by
    rw [List.length_cons] at h
    rw [word, BitVec.getLsbD_xor, word_getLsbD (by omega), Bool.xor_false]
    cases bit
    · exact BitVec.getLsbD_zero
    · rw [cond_true, BitVec.getLsbD_twoPow, decide_eq_false (by omega : bits.length ≠ i),
        Bool.and_false]

theorem notMem_of_word_eq_zero : ∀ {bits : List Bool}, bits.length ≤ w →
    (word bits : BitVec w) = 0#w → true ∉ bits
  | [], _, _ => List.not_mem_nil
  | bit :: bits, h, hzero => by
    rw [List.length_cons] at h
    have hbit := congrArg (fun v => v.getLsbD bits.length) hzero
    cases bit with
    | true =>
      simp only [word, BitVec.getLsbD_xor, word_getLsbD (Nat.le_refl _), cond_true,
        BitVec.getLsbD_twoPow, BitVec.getLsbD_zero] at hbit
      simp at hbit
      omega
    | false =>
      rw [word, cond_false, BitVec.zero_xor] at hzero
      rw [List.mem_cons, not_or]
      exact ⟨by decide, notMem_of_word_eq_zero (by omega) hzero⟩

theorem notMem_take {bits : List Bool} {n : Nat} (h : ∀ i < n, bits[i]? ≠ some true) :
    true ∉ bits.take n := by
  intro hmem
  obtain ⟨i, hi⟩ := List.mem_iff_getElem?.mp hmem
  rw [List.getElem?_take] at hi
  split_ifs at hi with hlt
  exact h i hlt hi

theorem notMem_drop {bits : List Bool} {n : Nat} (h : ∀ i, n ≤ i → bits[i]? ≠ some true) :
    true ∉ bits.drop n := by
  intro hmem
  obtain ⟨i, hi⟩ := List.mem_iff_getElem?.mp hmem
  rw [List.getElem?_drop] at hi
  exact h _ (Nat.le_add_right n i) hi

/-- **Wrong bits within `w` positions are shown**, by every generator. -/
theorem register_ne_zero_of_burst {bits : List Bool} (hwrong : true ∈ bits) (start : Nat)
    (h : ∀ i ∈ ones bits, start ≤ i ∧ i < start + w) : register g bits ≠ 0#w := by
  have hbefore : true ∉ bits.take start := notMem_take fun i hi hbit => by
    have := (h i (mem_ones.mpr hbit)).1
    omega
  have hbehind : true ∉ (bits.drop start).drop w := by
    rw [List.drop_drop]
    refine notMem_drop fun i hi hbit => ?_
    have := (h i (mem_ones.mpr hbit)).2
    omega
  have hsplit : bits = bits.take start ++ ((bits.drop start).take w ++ (bits.drop start).drop w) := by
    rw [List.take_append_drop, List.take_append_drop]
  intro hzero
  rw [hsplit, register_append, register_eq_zero_of_notMem g hbefore, iterate_step_zero,
    BitVec.zero_xor, register_append, register_eq_zero_of_notMem g hbehind, BitVec.xor_zero] at hzero
  have hlength : ((bits.drop start).take w).length ≤ w := List.length_take_le _ _
  rw [← iterate_step_word hlength] at hzero
  have hinside := notMem_of_word_eq_zero hlength
    (iterate_step_eq_zero (iterate_step_eq_zero hzero))
  rw [hsplit, List.mem_append, List.mem_append] at hwrong
  rcases hwrong with hmem | hmem | hmem
  · exact hbefore hmem
  · exact hinside hmem
  · exact hbehind hmem

/-! ## Two wrong bits -/

theorem register_two {p q r : List Bool} (hp : true ∉ p) (hq : true ∉ q) (hr : true ∉ r) :
    register g (p ++ true :: (q ++ true :: r))
      = (step g)^[r.length] ((step g)^[q.length + 1] g.poly ^^^ g.poly) := by
  have hlength : (q ++ true :: r).length = r.length + (q.length + 1) := by
    rw [List.length_append, List.length_cons]
    omega
  rw [register_append, register_eq_zero_of_notMem g hp, iterate_step_zero, BitVec.zero_xor,
    register_cons, register_append, register_eq_zero_of_notMem g hq, iterate_step_zero,
    BitVec.zero_xor, register_cons, register_eq_zero_of_notMem g hr, BitVec.xor_zero, cond_true,
    hlength, Function.iterate_add_apply, iterate_step_xor]

theorem split_of_two {bits : List Bool} {i j : Nat} (hij : i < j) (hones : ones bits = {i, j}) :
    ∃ p q r, bits = p ++ true :: (q ++ true :: r) ∧ q.length + 1 = j - i ∧
      true ∉ p ∧ true ∉ q ∧ true ∉ r := by
  have h : ∀ k, bits[k]? = some true ↔ k = i ∨ k = j := fun k => by
    rw [← mem_ones, hones, Finset.mem_insert, Finset.mem_singleton]
  obtain ⟨hi, hbiti⟩ := List.getElem?_eq_some_iff.mp ((h i).mpr (Or.inl rfl))
  obtain ⟨hj, hbitj⟩ := List.getElem?_eq_some_iff.mp ((h j).mpr (Or.inr rfl))
  have hother : ∀ k, k ≠ i → k ≠ j → bits[k]? ≠ some true := fun k hki hkj hk =>
    ((h k).mp hk).elim hki hkj
  have hinner : (bits.drop (i + 1)).drop (j - i - 1) = true :: bits.drop (j + 1) := by
    rw [List.drop_drop, show i + 1 + (j - i - 1) = j by omega, List.drop_eq_getElem_cons hj, hbitj]
  have hsplit : bits = bits.take i ++
      true :: ((bits.drop (i + 1)).take (j - i - 1) ++ true :: bits.drop (j + 1)) := by
    calc bits = bits.take i ++ bits.drop i := (List.take_append_drop _ _).symm
      _ = bits.take i ++ true :: bits.drop (i + 1) := by
        rw [List.drop_eq_getElem_cons hi, hbiti]
      _ = _ := by rw [← hinner, List.take_append_drop]
  refine ⟨_, _, _, hsplit, ?_, notMem_take fun k hk => hother k (by omega) (by omega),
    notMem_take fun k hk => ?_, notMem_drop fun k hk => hother k (by omega) (by omega)⟩
  · rw [List.length_take, List.length_drop]
    omega
  · rw [List.getElem?_drop]
    exact hother _ (by omega) (by omega)

/-- **Two wrong bits are missed** where their distance is a multiple of the period. -/
theorem register_eq_zero_iff_of_two {bits : List Bool} {i j : Nat} (hij : i < j)
    (hones : ones bits = {i, j}) :
    register g bits = 0#w ↔ Function.minimalPeriod (step g) g.poly ∣ j - i := by
  obtain ⟨p, q, r, rfl, hlen, hp, hq, hr⟩ := split_of_two hij hones
  rw [register_two hp hq hr, ← hlen, ← Function.isPeriodicPt_iff_minimalPeriod_dvd]
  constructor
  · intro hzero
    exact BitVec.xor_eq_zero_iff.mp (iterate_step_eq_zero hzero)
  · intro hperiod
    rw [BitVec.xor_eq_zero_iff.mpr hperiod, iterate_step_zero]

end EmbeddedTestbench.Lib.Crc
