import EmbeddedTestbench.Nanopb.Decode

/-!
# The required fields of any table (`pb_decode.c`)

`fields_seen` is a bitmap of two words with a bit for each required field, in the order of the
table. A bit is set for the first 64 of them only, and only these are asked for at the end.

Headlines:
* **`SeenBits.markSeen`**: the bitmap stays what the fields that were read make it.
* **`SeenBits.requiredSeen_iff`**: the check passes when the required fields were all read.
-/

namespace EmbeddedTestbench.Nanopb

variable {P : Type}

/-! ## Counting -/

/-- A count is reached by one of the elements counted. -/
theorem exists_countP_take {α : Type} {p : α → Bool} : ∀ {l : List α} {b : Nat}, b < l.countP p →
    ∃ i, ∃ h : i < l.length, p l[i] = true ∧ (l.take i).countP p = b
  | [], b, h => absurd h (Nat.not_lt_zero b)
  | a :: l, b, h => by
    by_cases ha : p a = true
    · rw [List.countP_cons_of_pos ha] at h
      cases b with
      | zero => exact ⟨0, Nat.zero_lt_succ _, ha, rfl⟩
      | succ b =>
        obtain ⟨i, hi, hp, hcount⟩ := exists_countP_take (Nat.lt_of_succ_lt_succ h)
        exact ⟨i + 1, Nat.succ_lt_succ hi, hp, by
          rw [List.take_succ_cons, List.countP_cons_of_pos ha, hcount]⟩
    · rw [List.countP_cons_of_neg ha] at h
      obtain ⟨i, hi, hp, hcount⟩ := exists_countP_take h
      exact ⟨i + 1, Nat.succ_lt_succ hi, hp, by
        rw [List.take_succ_cons, List.countP_cons_of_neg ha, hcount]⟩

/-- The count before an element that is counted is below the count of all. -/
theorem countP_take_lt {α : Type} {p : α → Bool} {l : List α} {i j : Nat} (h : i < l.length)
    (hp : p l[i] = true) (hij : i < j) : (l.take i).countP p < (l.take j).countP p := by
  have hsucc : (l.take (i + 1)).countP p = (l.take i).countP p + 1 := by
    rw [List.take_succ_eq_append_getElem h, List.countP_append, List.countP_singleton, if_pos hp]
  have hle : (l.take (i + 1)).countP p ≤ (l.take j).countP p :=
    (List.take_sublist_take_left hij).countP_le
  omega

theorem countP_take_inj {α : Type} {p : α → Bool} {l : List α} {i j : Nat} (hi : i < l.length)
    (hj : j < l.length) (hpi : p l[i] = true) (hpj : p l[j] = true)
    (h : (l.take i).countP p = (l.take j).countP p) : i = j := by
  rcases Nat.lt_trichotomy i j with hlt | heq | hgt
  · exact absurd h (Nat.ne_of_lt (countP_take_lt hi hpi hlt))
  · exact heq
  · exact absurd h.symm (Nat.ne_of_lt (countP_take_lt hj hpj hgt))

/-! ## The bitmap -/

/-- The place of field `i` among the required ones. -/
def requiredIndex (fields : List (PbField P)) (i : Nat) : Nat :=
  (fields.take i).countP fun f => f.htype == .required

/-- How many required fields there are. -/
def requiredCount (fields : List (PbField P)) : Nat := fields.countP fun f => f.htype == .required

/-- Every required field, of the first 64, is among the fields `read`. -/
def RequiredRead (fields : List (PbField P)) (read : List Nat) : Prop :=
  ∀ i, requiredAt fields i = true → requiredIndex fields i < pbMaxRequiredFields → i ∈ read

/-- Bit `b` of the bitmap. -/
def seenBit (w₀ w₁ b : Nat) : Bool := if b < 32 then w₀.testBit b else w₁.testBit (b - 32)

/-- The bitmap has the bits of the required fields that were read. -/
def SeenBits (fields : List (PbField P)) (seen : List Nat) (read : List Nat) : Prop :=
  ∃ w₀ w₁, seen = [w₀, w₁] ∧ w₀ < 2 ^ 32 ∧ w₁ < 2 ^ 32 ∧ ∀ b < 64, seenBit w₀ w₁ b = true ↔
    ∃ i ∈ read, requiredAt fields i = true ∧ requiredIndex fields i = b

variable {fields : List (PbField P)} {seen read : List Nat}

theorem seenBits_none (fields : List (PbField P)) : SeenBits fields noneSeen [] := by
  refine ⟨0, 0, rfl, by decide, by decide, fun b _ => ?_⟩
  have hbit : seenBit 0 0 b = false := by
    rw [seenBit]
    split_ifs <;> exact Nat.zero_testBit _
  rw [hbit]
  exact ⟨fun h => absurd h Bool.false_ne_true, fun ⟨i, hi, _⟩ => absurd hi List.not_mem_nil⟩

/-- Setting a bit of a word. -/
theorem testBit_or_shiftLeft (w k b : Nat) :
    (w ||| 1 <<< k).testBit b = true ↔ w.testBit b = true ∨ b = k := by
  rw [Nat.testBit_or, Bool.or_eq_true, Nat.one_shiftLeft, Nat.testBit_two_pow, decide_eq_true_iff]
  exact or_congr_right eq_comm

theorem or_shiftLeft_lt {w k : Nat} (hw : w < 2 ^ 32) (hk : k < 32) : w ||| 1 <<< k < 2 ^ 32 := by
  refine Nat.or_lt_two_pow hw ?_
  rw [Nat.one_shiftLeft]
  exact Nat.pow_lt_pow_right (by decide) hk

theorem shiftRight_5_big {k : Nat} (hlo : 32 ≤ k) (hhi : k < 64) : k >>> 5 = 1 := by
  rw [Nat.shiftRight_eq_div_pow]
  omega

theorem and_31 (k : Nat) : k &&& 31 = k % 32 := Nat.and_two_pow_sub_one_eq_mod k 5

/-- **The bitmap after a field was read.** -/
theorem SeenBits.markSeen (h : SeenBits fields seen read) (i : Nat) :
    SeenBits fields (markSeen fields (iterAt fields i) seen) (i :: read) := by
  obtain ⟨w₀, w₁, rfl, hw₀, hw₁, hbits⟩ := h
  have hread : ∀ b, (∃ j ∈ i :: read, requiredAt fields j = true ∧ requiredIndex fields j = b) ↔
      (requiredAt fields i = true ∧ requiredIndex fields i = b) ∨
        ∃ j ∈ read, requiredAt fields j = true ∧ requiredIndex fields j = b := by
    intro b
    simp only [List.mem_cons, or_and_right, exists_or, exists_eq_left]
  have hidx : (iterAt fields i).requiredFieldIndex = requiredIndex fields i := rfl
  have hpos : (iterAt fields i).pos = i := rfl
  rw [Nanopb.markSeen, hidx, hpos]
  by_cases hset : requiredAt fields i = true ∧ requiredIndex fields i < pbMaxRequiredFields
  · obtain ⟨hreq, hmax⟩ := hset
    have hmax' : requiredIndex fields i < 64 := hmax
    rw [if_pos ⟨hreq, hmax⟩]
    by_cases hlow : requiredIndex fields i < 32
    · have hword : requiredIndex fields i >>> 5 = 0 := by
        rw [Nat.shiftRight_eq_div_pow]
        exact Nat.div_eq_of_lt hlow
      refine ⟨w₀ ||| 1 <<< requiredIndex fields i, w₁, ?_, or_shiftLeft_lt hw₀ hlow, hw₁, ?_⟩
      · rw [hword, and_31, Nat.mod_eq_of_lt hlow]
        rfl
      · intro b hb
        rw [hread, ← hbits b hb, seenBit, seenBit]
        split_ifs with hb32
        · rw [testBit_or_shiftLeft, or_comm, and_iff_right hreq]
          exact or_congr_left eq_comm
        · have hne : requiredIndex fields i ≠ b := by omega
          exact ⟨Or.inr, fun h => h.resolve_left fun h' => hne h'.2⟩
    · have hword := shiftRight_5_big (Nat.not_lt.mp hlow) hmax'
      have hmod : requiredIndex fields i % 32 = requiredIndex fields i - 32 := by omega
      refine ⟨w₀, w₁ ||| 1 <<< (requiredIndex fields i - 32), ?_, hw₀,
        or_shiftLeft_lt hw₁ (by omega), ?_⟩
      · rw [hword, and_31, hmod]
        rfl
      · intro b hb
        rw [hread, ← hbits b hb, seenBit, seenBit]
        split_ifs with hb32
        · have hne : requiredIndex fields i ≠ b := by omega
          exact ⟨Or.inr, fun h => h.resolve_left fun h' => hne h'.2⟩
        · have heq : b - 32 = requiredIndex fields i - 32 ↔ requiredIndex fields i = b := by omega
          rw [testBit_or_shiftLeft, or_comm, and_iff_right hreq, heq]
  · rw [if_neg hset]
    refine ⟨w₀, w₁, rfl, hw₀, hw₁, fun b hb => ?_⟩
    rw [hread, ← hbits b hb]
    refine ⟨Or.inr, fun h => h.resolve_left fun ⟨hreq, heq⟩ => hset ⟨hreq, ?_⟩⟩
    rw [heq]
    exact hb

/-! ## The check -/

/-- A word with the first `n` bits set and no other. -/
theorem word_eq_iff {w n : Nat} (hw : w < 2 ^ 32) (hn : n ≤ 32) :
    w = 2 ^ n - 1 ↔ ∀ b < 32, w.testBit b = true ↔ b < n := by
  constructor
  · rintro rfl b -
    rw [Nat.testBit_two_pow_sub_one, decide_eq_true_iff]
  · intro h
    refine Nat.eq_of_testBit_eq fun b => ?_
    rw [Nat.testBit_two_pow_sub_one]
    by_cases hb : b < 32
    · rw [Bool.eq_iff_iff, decide_eq_true_iff]
      exact h b hb
    · have hzero : w.testBit b = false :=
        Nat.testBit_lt_two_pow (hw.trans_le (Nat.pow_le_pow_right (by decide) (by omega)))
      rw [hzero, decide_eq_false (by omega)]

theorem allbits_shift : ∀ k < 32, 0 < k → allbits >>> (32 - k) = 2 ^ k - 1 := by decide

/-- A word in which no bit from `n` on is set. -/
theorem word_full_iff {w n : Nat} (hw : w < 2 ^ 32) (hn : n ≤ 32)
    (hno : ∀ b < 32, w.testBit b = true → b < n) :
    w = 2 ^ n - 1 ↔ ∀ b < n, w.testBit b = true := by
  rw [word_eq_iff hw hn]
  constructor
  · intro h b hb
    exact (h b (by omega)).mpr hb
  · intro h b hb
    exact ⟨hno b hb, h b⟩

theorem seenBit_low {w₀ w₁ b : Nat} (h : b < 32) : seenBit w₀ w₁ b = w₀.testBit b := if_pos h

theorem seenBit_high (w₀ w₁ b : Nat) : seenBit w₀ w₁ (b + 32) = w₁.testBit b := by
  rw [seenBit, if_neg (by omega), Nat.add_sub_cancel]

theorem requiredSeen_low {w₀ w₁ count : Nat} (hpos : 0 < count) (h : count < 32) :
    requiredSeen count [w₀, w₁] = true ↔ w₀ = 2 ^ count - 1 := by
  have hword : count >>> 5 = 0 := by
    rw [Nat.shiftRight_eq_div_pow]
    exact Nat.div_eq_of_lt h
  rw [requiredSeen, hword, and_31, Nat.mod_eq_of_lt h, allbits_shift count h hpos]
  simp [Nat.ne_of_gt hpos]

theorem requiredSeen_high {w₀ w₁ count : Nat} (hlo : 32 < count) (h : count < 64) :
    requiredSeen count [w₀, w₁] = true ↔ w₀ = 2 ^ 32 - 1 ∧ w₁ = 2 ^ (count - 32) - 1 := by
  have hmod : count % 32 = count - 32 := by omega
  have hne : count - 32 ≠ 0 := by omega
  rw [requiredSeen, shiftRight_5_big hlo.le h, and_31, hmod,
    allbits_shift (count - 32) (by omega) (by omega)]
  simp [hne, allbits]

/-- The check passes when the first `count` bits are set, where no others can be. -/
theorem requiredSeen_iff_bits {w₀ w₁ count : Nat} (hw₀ : w₀ < 2 ^ 32) (hw₁ : w₁ < 2 ^ 32)
    (hcount : count ≤ 64) (hno : ∀ b < 64, seenBit w₀ w₁ b = true → b < count) :
    requiredSeen count [w₀, w₁] = true ↔ ∀ b < count, seenBit w₀ w₁ b = true := by
  have hlow : ∀ {n}, n ≤ 32 → (∀ b < 32, w₀.testBit b = true → b < n) →
      (w₀ = 2 ^ n - 1 ↔ ∀ b < n, seenBit w₀ w₁ b = true) := by
    intro n hn hbits
    rw [word_full_iff hw₀ hn hbits]
    exact forall₂_congr fun b hb => by rw [seenBit_low (by omega)]
  have hhigh : ∀ {n}, n ≤ 32 → (∀ b < 32, w₁.testBit b = true → b < n) →
      (w₁ = 2 ^ n - 1 ↔ ∀ b < n, seenBit w₀ w₁ (b + 32) = true) := by
    intro n hn hbits
    rw [word_full_iff hw₁ hn hbits]
    exact forall₂_congr fun b hb => by rw [seenBit_high]
  have hlowAll : w₀ = 2 ^ 32 - 1 ↔ ∀ b < 32, seenBit w₀ w₁ b = true :=
    hlow (Nat.le_refl _) fun b hb _ => hb
  have hhighNo : ∀ b < 32, w₁.testBit b = true → b < count - 32 := by
    intro b hb hbit
    rw [← seenBit_high w₀ w₁] at hbit
    have := hno (b + 32) (by omega) hbit
    omega
  -- the low word and the high word together
  have hboth : 32 ≤ count → ((w₀ = 2 ^ 32 - 1 ∧ w₁ = 2 ^ (count - 32) - 1) ↔
      ∀ b < count, seenBit w₀ w₁ b = true) := by
    intro hlo
    rw [hlowAll, hhigh (by omega) hhighNo]
    constructor
    · rintro ⟨h₀, h₁⟩ b hb
      by_cases hb32 : b < 32
      · exact h₀ b hb32
      · have := h₁ (b - 32) (by omega)
        rwa [Nat.sub_add_cancel (Nat.not_lt.mp hb32)] at this
    · intro h
      exact ⟨fun b hb => h b (by omega), fun b hb => h (b + 32) (by omega)⟩
  rcases Nat.lt_trichotomy count 32 with hlt | heq | hgt
  · rcases Nat.eq_zero_or_pos count with hzero | hpos
    · subst hzero
      exact ⟨fun _ b hb => absurd hb (Nat.not_lt_zero b), fun _ => rfl⟩
    · rw [requiredSeen_low hpos hlt]
      refine hlow hlt.le fun b hb hbit => hno b (by omega) ?_
      rw [seenBit_low hb, hbit]
  · subst heq
    rw [← hlowAll]
    simp [requiredSeen, allbits]
  · rcases Nat.lt_or_eq_of_le hcount with hlt | heq
    · rw [requiredSeen_high hgt hlt]
      exact hboth hgt.le
    · subst heq
      rw [← hboth (by decide)]
      simp [requiredSeen, allbits]

/-- The count at the end, of any table. -/
theorem reqFieldCount_eq {j : Nat} (hj : j < fields.length) :
    reqFieldCount fields (iterAt fields j) = min (requiredCount fields) pbMaxRequiredFields := by
  have hlast : fields.length - 1 < fields.length := by omega
  have hend : iterSeekEnd fields fields.length (iterAt fields j)
      = iterAt fields (fields.length - 1) :=
    iterSeekEnd_iterAt fields.length j hj (Nat.le_add_left _ _)
  have hreq : requiredAt fields (fields.length - 1)
      = (fields[fields.length - 1].htype == HType.required) := by
    rw [requiredAt, List.getElem?_eq_getElem hlast, Option.any_some]
  have htotal : requiredCount fields = (iterAt fields (fields.length - 1)).requiredFieldIndex
      + if fields[fields.length - 1].htype == HType.required then 1 else 0 := by
    have hall : fields.take (fields.length - 1 + 1) = fields := List.take_of_length_le (by omega)
    rw [List.take_succ_eq_append_getElem hlast] at hall
    rw [requiredCount]
    nth_rewrite 1 [← hall]
    rw [List.countP_append, List.countP_singleton]
    rfl
  rw [reqFieldCount, hend, htotal]
  simp only [show (iterAt fields (fields.length - 1)).pos = fields.length - 1 from rfl, hreq]

theorem requiredAt_eq {i : Nat} (hi : i < fields.length) :
    requiredAt fields i = (fields[i].htype == HType.required) := by
  rw [requiredAt, List.getElem?_eq_getElem hi, Option.any_some]

theorem requiredAt_lt {i : Nat} (h : requiredAt fields i = true) : i < fields.length := by
  by_contra hge
  rw [requiredAt, List.getElem?_eq_none (Nat.not_lt.mp hge)] at h
  exact absurd h Bool.false_ne_true

/-- A place where an iterator stands: of a field, or the beginning of a table without any. -/
def Stands (fields : List (PbField P)) (j : Nat) : Prop := j < fields.length ∨ fields = [] ∧ j = 0

theorem stands_begin (fields : List (PbField P)) : Stands fields 0 := by
  rcases List.eq_nil_or_concat' fields with rfl | ⟨init, f, rfl⟩
  · exact Or.inr ⟨rfl, rfl⟩
  · exact Or.inl (by simp)

/-- **The check passes exactly when the required fields were all read**, of the first 64. -/
theorem SeenBits.requiredSeen_iff (h : SeenBits fields seen read) {j : Nat}
    (hj : Stands fields j) :
    requiredSeen (reqFieldCount fields (iterAt fields j)) seen = true ↔
      RequiredRead fields read := by
  rcases hj with hj | ⟨rfl, rfl⟩
  · obtain ⟨w₀, w₁, rfl, hw₀, hw₁, hbits⟩ := h
    have hbelow : ∀ {i}, requiredAt fields i = true →
        requiredIndex fields i < requiredCount fields := by
      intro i hi
      have hlt := requiredAt_lt hi
      have hp : (fields[i].htype == HType.required) = true := (requiredAt_eq hlt).symm.trans hi
      have hcount := countP_take_lt (p := fun f : PbField P => f.htype == HType.required) hlt hp hlt
      rwa [List.take_length] at hcount
    have hmin : min (requiredCount fields) pbMaxRequiredFields ≤ 64 := Nat.min_le_right _ _
    rw [reqFieldCount_eq hj, requiredSeen_iff_bits hw₀ hw₁ hmin]
    · constructor
      · intro hall i hi hmax
        have hlt := hbelow hi
        obtain ⟨k, hk, hreq, hidx⟩ := (hbits _ hmax).mp (hall _ (Nat.lt_min.mpr ⟨hlt, hmax⟩))
        have hik : i = k := countP_take_inj (p := fun f : PbField P => f.htype == HType.required)
          (requiredAt_lt hi) (requiredAt_lt hreq)
          ((requiredAt_eq (requiredAt_lt hi)).symm.trans hi)
          ((requiredAt_eq (requiredAt_lt hreq)).symm.trans hreq) hidx.symm
        exact hik ▸ hk
      · intro hall b hb
        obtain ⟨hcount, hmax⟩ := Nat.lt_min.mp hb
        obtain ⟨i, hi, hp, hidx⟩ := exists_countP_take hcount
        have hreq : requiredAt fields i = true := by rw [requiredAt_eq hi, hp]
        refine (hbits b hmax).mpr ⟨i, hall i hreq ?_, hreq, hidx⟩
        rw [requiredIndex, hidx]
        exact hmax
    · intro b hb hbit
      obtain ⟨i, -, hreq, hidx⟩ := (hbits b hb).mp hbit
      exact Nat.lt_min.mpr ⟨hidx ▸ hbelow hreq, hb⟩
  · have hnone : RequiredRead ([] : List (PbField P)) read := fun i hi =>
      absurd (requiredAt_lt hi) (Nat.not_lt_zero i)
    have hcount : reqFieldCount ([] : List (PbField P)) (iterAt ([] : List (PbField P)) 0) = 0 := by
      simp [reqFieldCount, iterSeekEnd, iterAt, requiredAt]
    rw [hcount]
    exact ⟨fun _ => hnone, fun _ => by simp [requiredSeen]⟩

end EmbeddedTestbench.Nanopb
