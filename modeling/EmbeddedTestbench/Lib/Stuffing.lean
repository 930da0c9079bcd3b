import Mathlib.Algebra.Order.Group.Nat
import Mathlib.Data.List.Basic

/-!
# Consistent overhead stuffing

A string over an alphabet with a delimiter is written without it: it is cut into runs that have no
delimiter in them, and each run is written with a code for its length in front. A run shorter than
`maxRun` stands for itself and a delimiter behind it, except at the end; a run of length `maxRun`
stands for itself alone.

Headlines:
* **`join_runs`**: the runs of a string make up the string.
* **`runs_join`**: a sequence of runs is the one of its string, or has one empty run too many.
* **`stuffed_inj`**: the runs can be read back from what is written.
* **`stuffs_iff`**: what is written for which string.
* **`length_stuffed`**, **`fullRuns_runs`**: how long it is.
* **`exists_groups`**, **`groups_prefix`**: what any string can be read as, and the start of one.
* **`spells_encodeReduced`**, **`exists_spells`**: the last run can be read back where it was
  reduced, and so everything without the delimiter can be read.
-/

namespace EmbeddedTestbench.Lib

/-- An alphabet with a delimiter, and codes for the lengths up to `maxRun` among the rest of it. -/
structure Stuffing (α : Type) where
  delimiter : α
  maxRun : Nat
  /-- The code of a length. -/
  code : Nat → α
  /-- The length that a code stands for. -/
  size : α → Nat
  maxRun_pos : 0 < maxRun
  code_ne : ∀ n ≤ maxRun, code n ≠ delimiter
  size_code : ∀ n ≤ maxRun, size (code n) = n
  code_size : ∀ a, a ≠ delimiter → code (size a) = a
  size_le : ∀ a, a ≠ delimiter → size a ≤ maxRun

namespace Stuffing

variable {α : Type} (s : Stuffing α)

/-- A run with its code in front. -/
def group (run : List α) : List α := s.code run.length :: run

/-- Runs that may be written: without the delimiter, and not too long. -/
def Valid (rs : List (List α)) : Prop := ∀ run ∈ rs, s.delimiter ∉ run ∧ run.length ≤ s.maxRun

/-- The string that runs stand for. -/
def join : List (List α) → List α
  | [] => []
  | [run] => run
  | run :: run' :: rs =>
    run ++ ((if run.length < s.maxRun then [s.delimiter] else []) ++ join (run' :: rs))

/-- The runs of a string, behind the run read so far. A run that is full is closed only when
something follows. -/
def runs [DecidableEq α] : List α → List α → List (List α)
  | run, [] => [run]
  | run, a :: src =>
    if a = s.delimiter then run :: runs [] src
    else if src ≠ [] ∧ run.length + 1 = s.maxRun then (run ++ [a]) :: runs [] src
    else runs (run ++ [a]) src

/-! ## Runs -/

variable {s}

theorem valid_cons {run : List α} {rs : List (List α)} :
    s.Valid (run :: rs) ↔ (s.delimiter ∉ run ∧ run.length ≤ s.maxRun) ∧ s.Valid rs :=
  List.forall_mem_cons

theorem join_cons (run : List α) {rs : List (List α)} (h : rs ≠ []) : s.join (run :: rs)
    = run ++ ((if run.length < s.maxRun then [s.delimiter] else []) ++ s.join rs) := by
  cases rs with
  | nil => exact absurd rfl h
  | cons run' rs => rfl

/-- A run that is not the last one, with the delimiter it stands for. -/
def closed (s : Stuffing α) (run : List α) : List α :=
  run ++ if run.length < s.maxRun then [s.delimiter] else []

theorem join_append : ∀ (rs : List (List α)) {rs' : List (List α)}, rs' ≠ [] →
    s.join (rs ++ rs') = rs.flatMap s.closed ++ s.join rs'
  | [], _, _ => rfl
  | run :: rs, rs', h => by
    rw [List.cons_append, join_cons run (List.append_ne_nil_of_right_ne_nil rs h), join_append rs h,
      List.flatMap_cons, closed, List.append_assoc, List.append_assoc]

theorem join_prefix_closed (rs : List (List α)) : s.join rs <+: rs.flatMap s.closed := by
  rcases List.eq_nil_or_concat' rs with rfl | ⟨init, run, rfl⟩
  · exact List.nil_prefix
  · rw [join_append init (List.cons_ne_nil _ _), List.flatMap_append, List.flatMap_singleton, closed,
      List.prefix_append_right_inj]
    exact List.prefix_append _ _

/-- The runs written first stand for the first part of the string. -/
theorem join_prefix_append (rs rs' : List (List α)) : s.join rs <+: s.join (rs ++ rs') := by
  cases rs' with
  | nil => simp only [List.append_nil, List.prefix_rfl]
  | cons run rs' =>
    rw [join_append rs (List.cons_ne_nil _ _)]
    exact (join_prefix_closed rs).trans (List.prefix_append _ _)

/-- An empty run at the end adds nothing behind a full run. -/
theorem join_concat_nil {init : List (List α)} {run : List α} (h : run.length = s.maxRun) :
    s.join (init ++ [run, []]) = s.join (init ++ [run]) := by
  rw [join_append init (List.cons_ne_nil _ _), join_append init (List.cons_ne_nil _ _), join, join,
    if_neg (by omega), join]
  simp

variable [DecidableEq α]

theorem runs_ne_nil : ∀ (run src : List α), s.runs run src ≠ []
  | _, [] => List.cons_ne_nil _ _
  | run, a :: src => by
    rw [runs]
    split_ifs
    · exact List.cons_ne_nil _ _
    · exact List.cons_ne_nil _ _
    · exact runs_ne_nil _ _

/-- **The runs of a string make up the string.** -/
theorem join_runs : ∀ {run : List α} (src : List α), run.length < s.maxRun ∨ src = [] →
    s.join (s.runs run src) = run ++ src
  | run, [], _ => (List.append_nil run).symm
  | run, a :: src, h => by
    have hlt : run.length < s.maxRun := h.resolve_right (List.cons_ne_nil _ _)
    have htail : s.join (s.runs [] src) = src := join_runs src (Or.inl s.maxRun_pos)
    rw [runs]
    split_ifs with ha hfull
    · rw [join_cons run (runs_ne_nil _ _), if_pos hlt, htail, ha]
      rfl
    · have hlength : ¬ (run ++ [a]).length < s.maxRun := by
        rw [List.length_append, List.length_singleton]
        omega
      rw [join_cons _ (runs_ne_nil _ _), if_neg hlength, htail, List.append_assoc]
      rfl
    · have hroom : (run ++ [a]).length < s.maxRun ∨ src = [] := by
        rw [List.length_append, List.length_singleton]
        by_cases hsrc : src = []
        · exact Or.inr hsrc
        · have hne : run.length + 1 ≠ s.maxRun := fun heq => hfull ⟨hsrc, heq⟩
          exact Or.inl (by omega)
      rw [join_runs src hroom, List.append_assoc]
      rfl

theorem valid_runs : ∀ {run : List α} (src : List α), s.delimiter ∉ run →
    run.length < s.maxRun ∨ src = [] ∧ run.length ≤ s.maxRun → s.Valid (s.runs run src)
  | run, [], hrun, h => by
    rw [runs, valid_cons]
    exact ⟨⟨hrun, h.elim Nat.le_of_lt And.right⟩, List.forall_mem_nil _⟩
  | run, a :: src, hrun, h => by
    have hlt : run.length < s.maxRun := h.resolve_right fun hnil => List.cons_ne_nil _ _ hnil.1
    have htail : s.Valid (s.runs [] src) := valid_runs src List.not_mem_nil (Or.inl s.maxRun_pos)
    have hmem : a ≠ s.delimiter → s.delimiter ∉ run ++ [a] := by
      intro ha
      rw [List.mem_append, List.mem_singleton]
      exact fun h => h.elim hrun fun heq => ha heq.symm
    have hlength : (run ++ [a]).length = run.length + 1 := by
      rw [List.length_append, List.length_singleton]
    rw [runs]
    split_ifs with ha hfull
    · exact valid_cons.mpr ⟨⟨hrun, Nat.le_of_lt hlt⟩, htail⟩
    · exact valid_cons.mpr ⟨⟨hmem ha, by omega⟩, htail⟩
    · refine valid_runs src (hmem ha) ?_
      by_cases hsrc : src = []
      · exact Or.inr ⟨hsrc, by omega⟩
      · have hne : run.length + 1 ≠ s.maxRun := fun heq => hfull ⟨hsrc, heq⟩
        exact Or.inl (by omega)

/-- Up to `maxRun` elements that are not the delimiter go on with the run. -/
theorem runs_append : ∀ (run x src : List α), s.delimiter ∉ x →
    run.length + x.length < s.maxRun → s.runs run (x ++ src) = s.runs (run ++ x) src
  | run, [], src, _, _ => by rw [List.nil_append, List.append_nil]
  | run, a :: x, src, hx, hlen => by
    rw [List.mem_cons, not_or] at hx
    rw [List.length_cons] at hlen
    have hlength : (run ++ [a]).length + x.length < s.maxRun := by
      rw [List.length_append, List.length_singleton]
      omega
    rw [List.cons_append, runs, if_neg (fun h => hx.1 h.symm), if_neg (fun h => by omega),
      runs_append (run ++ [a]) x src hx.2 hlength, List.append_assoc]
    rfl

/-- The runs of a string that is a run, with something behind it. -/
theorem runs_full {run : List α} (hrun : s.delimiter ∉ run) (hfull : run.length = s.maxRun)
    (src : List α) : s.runs [] (run ++ src) = if src = [] then [run] else run :: s.runs [] src := by
  obtain ⟨x, a, rfl⟩ : ∃ x a, run = x ++ [a] := by
    have hne : run ≠ [] := by
      rintro rfl
      have := s.maxRun_pos
      rw [List.length_nil] at hfull
      omega
    exact ⟨run.dropLast, run.getLast hne, (List.dropLast_append_getLast hne).symm⟩
  rw [List.mem_append, List.mem_singleton, not_or] at hrun
  rw [List.length_append, List.length_singleton] at hfull
  have hx : ([] : List α).length + x.length < s.maxRun := by
    rw [List.length_nil]
    omega
  rw [List.append_assoc, runs_append [] x _ hrun.1 hx, List.nil_append, List.singleton_append, runs,
    if_neg fun h => hrun.2 h.symm]
  by_cases hsrc : src = []
  · rw [if_neg (fun h => h.1 hsrc), if_pos hsrc, hsrc, runs]
  · rw [if_pos ⟨hsrc, hfull⟩, if_neg hsrc]

theorem runs_short {run : List α} (hrun : s.delimiter ∉ run) (hlen : run.length ≤ s.maxRun) :
    s.runs [] run = [run] := by
  rcases Nat.lt_or_eq_of_le hlen with hlt | hfull
  · have := runs_append [] run [] hrun (by rw [List.length_nil]; omega)
    rwa [List.append_nil, List.nil_append, runs] at this
  · have := runs_full hrun hfull []
    rwa [List.append_nil, if_pos rfl] at this

omit [DecidableEq α] in
theorem join_eq_nil {run : List α} {rs : List (List α)} (h : s.join (run :: rs) = []) :
    run = [] ∧ rs = [] := by
  cases rs with
  | nil => exact ⟨h, rfl⟩
  | cons run' rs =>
    rw [join] at h
    obtain ⟨rfl, htail⟩ := List.append_eq_nil_iff.mp h
    rw [List.length_nil, if_pos s.maxRun_pos] at htail
    exact absurd htail (List.cons_ne_nil _ _)

/-- **A sequence of runs is the one of its string**, unless it ends in an empty run behind a full
one, which adds nothing. -/
theorem runs_join : ∀ {rs : List (List α)}, s.Valid rs → rs ≠ [] →
    s.runs [] (s.join rs) = rs ∨ ∃ init run, rs = init ++ [run, []] ∧ run.length = s.maxRun ∧
      s.runs [] (s.join rs) = init ++ [run]
  | [], _, h => absurd rfl h
  | [run], hvalid, _ => by
    obtain ⟨hrun, hlen⟩ := (valid_cons.mp hvalid).1
    exact Or.inl (runs_short hrun hlen)
  | run :: run' :: rs, hvalid, _ => by
    obtain ⟨⟨hrun, hlen⟩, htail⟩ := valid_cons.mp hvalid
    have ih := runs_join htail (List.cons_ne_nil _ _)
    rw [join_cons run (List.cons_ne_nil _ _)]
    rcases Nat.lt_or_eq_of_le hlen with hlt | hfull
    · have hhead : s.runs [] (run ++ ([s.delimiter] ++ s.join (run' :: rs)))
          = run :: s.runs [] (s.join (run' :: rs)) := by
        rw [runs_append [] run _ hrun (by rw [List.length_nil]; omega), List.nil_append,
          List.singleton_append, runs, if_pos rfl]
      rw [if_pos hlt, hhead]
      rcases ih with ih | ⟨init, last, hsplit, hlast, ih⟩
      · exact Or.inl (by rw [ih])
      · exact Or.inr ⟨run :: init, last, by rw [hsplit]; rfl, hlast, by rw [ih]; rfl⟩
    · rw [if_neg (by omega), List.nil_append, runs_full hrun hfull]
      split_ifs with hnil
      · obtain ⟨rfl, rfl⟩ := join_eq_nil hnil
        exact Or.inr ⟨[], run, rfl, hfull, rfl⟩
      · rcases ih with ih | ⟨init, last, hsplit, hlast, ih⟩
        · exact Or.inl (by rw [ih])
        · exact Or.inr ⟨run :: init, last, by rw [hsplit]; rfl, hlast, by rw [ih]; rfl⟩

/-! ## What is written -/

/-- The runs as they are written, one group after the other. -/
def stuffed (s : Stuffing α) (rs : List (List α)) : List α := rs.flatMap s.group

omit [DecidableEq α] in
theorem stuffed_cons (run : List α) (rs : List (List α)) :
    s.stuffed (run :: rs) = s.code run.length :: (run ++ s.stuffed rs) := List.flatMap_cons

omit [DecidableEq α] in
theorem stuffed_append (rs rs' : List (List α)) :
    s.stuffed (rs ++ rs') = s.stuffed rs ++ s.stuffed rs' := List.flatMap_append

omit [DecidableEq α] in
theorem stuffed_concat_nil (rs : List (List α)) :
    s.stuffed (rs ++ [[]]) = s.stuffed rs ++ [s.code 0] := stuffed_append rs [[]]

omit [DecidableEq α] in
/-- **The delimiter is nowhere in it.** -/
theorem notMem_stuffed : ∀ {rs : List (List α)}, s.Valid rs → s.delimiter ∉ s.stuffed rs
  | [], _ => List.not_mem_nil
  | run :: rs, h => by
    obtain ⟨⟨hrun, hlen⟩, htail⟩ := valid_cons.mp h
    rw [stuffed_cons, List.mem_cons, List.mem_append, not_or, not_or]
    exact ⟨fun heq => s.code_ne _ hlen heq.symm, hrun, notMem_stuffed htail⟩

omit [DecidableEq α] in
/-- **The runs can be read back.** -/
theorem stuffed_inj : ∀ {rs rs' : List (List α)}, s.Valid rs → s.Valid rs' →
    s.stuffed rs = s.stuffed rs' → rs = rs'
  | [], [], _, _, _ => rfl
  | [], _ :: _, _, _, h => absurd h.symm (List.cons_ne_nil _ _)
  | _ :: _, [], _, _, h => absurd h (List.cons_ne_nil _ _)
  | run :: rs, run' :: rs', hv, hv', h => by
    obtain ⟨⟨-, hlen⟩, htail⟩ := valid_cons.mp hv
    obtain ⟨⟨-, hlen'⟩, htail'⟩ := valid_cons.mp hv'
    rw [stuffed_cons, stuffed_cons] at h
    obtain ⟨hcode, hrest⟩ := List.cons.inj h
    have hlength : run.length = run'.length := by
      rw [← s.size_code _ hlen, hcode, s.size_code _ hlen']
    obtain ⟨rfl, hstuffed⟩ := List.append_inj hrest hlength
    rw [stuffed_inj htail htail' hstuffed]

/-- The full runs with something behind them; each takes one code more than it saves a
delimiter. -/
def fullRuns (s : Stuffing α) (rs : List (List α)) : Nat :=
  rs.dropLast.countP fun run => run.length = s.maxRun

omit [DecidableEq α] in
theorem fullRuns_cons (run : List α) {rs : List (List α)} (h : rs ≠ []) :
    s.fullRuns (run :: rs) = s.fullRuns rs + if run.length = s.maxRun then 1 else 0 := by
  rw [fullRuns, List.dropLast_cons_of_ne_nil h, List.countP_cons, ← fullRuns]
  simp

omit [DecidableEq α] in
/-- **How long it is**: a code more than the string, and one more for every full run. -/
theorem length_stuffed : ∀ {rs : List (List α)}, s.Valid rs → rs ≠ [] →
    (s.stuffed rs).length = (s.join rs).length + 1 + s.fullRuns rs
  | [], _, h => absurd rfl h
  | [run], _, _ => by
    rw [stuffed_cons, List.length_cons, List.length_append]
    rfl
  | run :: run' :: rs, h, _ => by
    obtain ⟨⟨-, hlen⟩, htail⟩ := valid_cons.mp h
    have hne : run' :: rs ≠ [] := List.cons_ne_nil _ _
    have ih := length_stuffed htail hne
    rw [stuffed_cons, List.length_cons, List.length_append, join_cons run hne, fullRuns_cons run hne,
      List.length_append, List.length_append]
    rcases Nat.lt_or_eq_of_le hlen with hlt | hfull
    · rw [if_pos hlt, if_neg (by omega), List.length_singleton]
      omega
    · rw [if_neg (by omega), if_pos hfull, List.length_nil]
      omega

/-- The full runs are part of the string, and do not make up all of it. -/
theorem fullRuns_runs : ∀ (run src : List α), run.length < s.maxRun ∨ src = [] →
    run ++ src ≠ [] → s.maxRun * s.fullRuns (s.runs run src) < run.length + src.length
  | run, [], _, hne => by
    rw [List.append_nil] at hne
    have hpos := List.length_pos_of_ne_nil hne
    show s.maxRun * 0 < run.length + 0
    omega
  | run, a :: src, h, _ => by
    have hlt : run.length < s.maxRun := h.resolve_right (List.cons_ne_nil _ _)
    have htail : s.maxRun * s.fullRuns (s.runs [] src) < src.length + 1 := by
      by_cases hsrc : src = []
      · rw [hsrc]
        show s.maxRun * 0 < 1
        omega
      · have := fullRuns_runs [] src (Or.inl s.maxRun_pos) hsrc
        rw [List.length_nil] at this
        omega
    rw [runs, List.length_cons]
    split_ifs with ha hfull
    · rw [fullRuns_cons run (runs_ne_nil _ _), if_neg (Nat.ne_of_lt hlt), Nat.add_zero]
      omega
    · have := fullRuns_runs [] src (Or.inl s.maxRun_pos) hfull.1
      have hlength : (run ++ [a]).length = s.maxRun := by
        rw [List.length_append, List.length_singleton]
        exact hfull.2
      rw [List.length_nil] at this
      rw [fullRuns_cons _ (runs_ne_nil _ _), if_pos hlength, Nat.mul_succ]
      omega
    · have hlength : (run ++ [a]).length = run.length + 1 := by
        rw [List.length_append, List.length_singleton]
      have hroom : (run ++ [a]).length < s.maxRun ∨ src = [] := by
        by_cases hsrc : src = []
        · exact Or.inr hsrc
        · have hne : run.length + 1 ≠ s.maxRun := fun heq => hfull ⟨hsrc, heq⟩
          exact Or.inl (by omega)
      have := fullRuns_runs (run ++ [a]) src hroom (by simp)
      omega

/-! ## Strings and what is written for them -/

/-- What is written for a string. -/
def encode (s : Stuffing α) (b : List α) : List α := s.stuffed (s.runs [] b)

/-- A string that is written for `b`, in one way or another. -/
def Stuffs (s : Stuffing α) (w b : List α) : Prop :=
  ∃ rs, s.Valid rs ∧ w = s.stuffed rs ∧ s.join rs = b

theorem valid_encode (b : List α) : s.Valid (s.runs [] b) :=
  valid_runs b List.not_mem_nil (Or.inl s.maxRun_pos)

theorem join_encode (b : List α) : s.join (s.runs [] b) = b :=
  join_runs b (Or.inl s.maxRun_pos)

theorem stuffs_encode (b : List α) : s.Stuffs (s.encode b) b :=
  ⟨s.runs [] b, valid_encode b, rfl, join_encode b⟩

omit [DecidableEq α] in
theorem Stuffs.unique {w b b' : List α} (h : s.Stuffs w b) (h' : s.Stuffs w b') : b = b' := by
  obtain ⟨rs, hv, rfl, rfl⟩ := h
  obtain ⟨rs', hv', hw, rfl⟩ := h'
  rw [stuffed_inj hv hv' hw]

/-- **What can be written for a string** is its encoding, or that with an empty run too many. -/
theorem stuffs_iff {w b : List α} (hw : w ≠ []) : s.Stuffs w b ↔ w = s.encode b ∨
    w = s.encode b ++ [s.code 0] ∧ ∃ init run, s.runs [] b = init ++ [run] ∧
      run.length = s.maxRun := by
  constructor
  · rintro ⟨rs, hvalid, rfl, rfl⟩
    have hne : rs ≠ [] := by
      rintro rfl
      exact hw rfl
    rcases runs_join hvalid hne with hruns | ⟨init, run, hsplit, hfull, hruns⟩
    · exact Or.inl (by rw [encode, hruns])
    · refine Or.inr ⟨?_, init, run, hruns, hfull⟩
      have hrs : rs = (init ++ [run]) ++ [[]] := by rw [hsplit, List.append_assoc]; rfl
      rw [encode, hruns, hrs, stuffed_concat_nil]
  · rintro (rfl | ⟨rfl, init, run, hruns, hfull⟩)
    · exact stuffs_encode b
    · refine ⟨s.runs [] b ++ [[]], ?_, by rw [stuffed_concat_nil, encode], ?_⟩
      · intro r hr
        rw [List.mem_append, List.mem_singleton] at hr
        rcases hr with hr | rfl
        · exact valid_encode b r hr
        · exact ⟨List.not_mem_nil, Nat.zero_le _⟩
      · have hsplit : s.runs [] b ++ [[]] = init ++ [run, []] := by
          rw [hruns, List.append_assoc]
          rfl
        rw [hsplit, join_concat_nil hfull, ← hruns, join_encode]

omit [DecidableEq α] in
theorem Stuffs.nil : s.Stuffs [] [] := ⟨[], List.forall_mem_nil _, rfl, rfl⟩

/-- Nothing shorter than the encoding is written for a string. -/
theorem Stuffs.length_le {w b : List α} (h : s.Stuffs w b) (hb : b ≠ []) :
    (s.encode b).length ≤ w.length := by
  have hw : w ≠ [] := by
    rintro rfl
    exact hb (h.unique .nil)
  rcases (stuffs_iff hw).mp h with rfl | ⟨rfl, -⟩
  · exact Nat.le_refl _
  · rw [List.length_append]
    exact Nat.le_add_right _ _

theorem length_encode (b : List α) :
    (s.encode b).length = b.length + 1 + s.fullRuns (s.runs [] b) := by
  rw [encode, length_stuffed (valid_encode b) (runs_ne_nil _ _), join_encode]

/-! ## Reading -/

omit [DecidableEq α] in
/-- **Every string is groups**, and behind them one that begins with the delimiter or may lack
elements. -/
theorem exists_groups {w : List α} (hne : w ≠ []) : ∃ init a x,
    (∀ run ∈ init, run.length ≤ s.maxRun) ∧ w = s.stuffed init ++ a :: x ∧
      (a ≠ s.delimiter → x.length ≤ s.size a) := by
  -- on the length of the string
  induction hn : w.length using Nat.strongRecOn generalizing w with
  | ind n ih =>
    obtain ⟨a, x, rfl⟩ := List.exists_cons_of_ne_nil hne
    by_cases hlast : a ≠ s.delimiter → x.length ≤ s.size a
    · exact ⟨[], a, x, List.forall_mem_nil _, rfl, hlast⟩
    · obtain ⟨ha, hlong⟩ := Classical.not_imp.mp hlast
      have hlength : (x.take (s.size a)).length = s.size a :=
        List.length_take_of_le (Nat.le_of_lt (Nat.not_le.mp hlong))
      have hdrop : x.drop (s.size a) ≠ [] := by
        rw [Ne, List.drop_eq_nil_iff]
        exact hlong
      obtain ⟨init, a', x', hinit, hw, hlast'⟩ := ih (x.drop (s.size a)).length
        (by rw [List.length_drop]; rw [List.length_cons] at hn; omega) hdrop rfl
      refine ⟨x.take (s.size a) :: init, a', x', List.forall_mem_cons.mpr ⟨?_, hinit⟩, ?_, hlast'⟩
      · rw [hlength]
        exact s.size_le a ha
      · rw [stuffed_cons, hlength, s.code_size a ha, List.cons_append, List.append_assoc, ← hw,
          List.take_append_drop]

omit [DecidableEq α] in
/-- The groups of a string without the delimiter are valid runs. -/
theorem valid_of_notMem : ∀ {rs : List (List α)} {w : List α},
    (∀ run ∈ rs, run.length ≤ s.maxRun) → s.delimiter ∉ s.stuffed rs ++ w → s.Valid rs
  | [], _, _, _ => List.forall_mem_nil _
  | run :: rs, w, hlen, h => by
    obtain ⟨hrun, hrs⟩ := List.forall_mem_cons.mp hlen
    rw [stuffed_cons, List.cons_append, List.append_assoc, List.mem_cons, List.mem_append, not_or,
      not_or] at h
    exact valid_cons.mpr ⟨⟨h.2.1, hrun⟩, valid_of_notMem hrs h.2.2⟩

omit [DecidableEq α] in
/-- The string that groups stand for with one more behind them. -/
theorem join_concat (init : List (List α)) (run : List α) :
    s.join (init ++ [run]) = init.flatMap s.closed ++ run :=
  join_append init (List.cons_ne_nil _ _)

omit [DecidableEq α] in
theorem stuffed_concat (init : List (List α)) (run : List α) :
    s.stuffed (init ++ [run]) = s.stuffed init ++ s.code run.length :: run := by
  rw [stuffed_append, stuffed_cons]
  exact congrArg (fun x => s.stuffed init ++ s.code run.length :: x) (List.append_nil run)

omit [DecidableEq α] in
/-- What is written for a string has a last group, with all its elements. -/
theorem Stuffs.groups {w b : List α} (h : s.Stuffs w b) (hw : w ≠ []) : ∃ init run,
    s.Valid (init ++ [run]) ∧ w = s.stuffed init ++ s.code run.length :: run ∧
      b = init.flatMap s.closed ++ run := by
  obtain ⟨rs, hvalid, rfl, rfl⟩ := h
  rcases List.eq_nil_or_concat' rs with rfl | ⟨init, run, rfl⟩
  · exact absurd rfl hw
  · exact ⟨init, run, hvalid, stuffed_concat init run, join_concat init run⟩

omit [DecidableEq α] in
/-- **The start of what is written for a string** holds the start of that string. -/
theorem groups_prefix : ∀ {init rs : List (List α)} {a : α} {x : List α}, s.Valid init →
    s.Valid rs → a ≠ s.delimiter → x.length ≤ s.size a →
    s.stuffed init ++ a :: x <+: s.stuffed rs → init.flatMap s.closed ++ x <+: s.join rs
  | _, [], _, _, _, _, _, _, h => absurd (List.prefix_nil.mp h) (by simp)
  | [], run :: rs, a, x, _, hrs, ha, hx, h => by
    obtain ⟨⟨-, hlen⟩, -⟩ := valid_cons.mp hrs
    rw [stuffed_cons] at h
    obtain ⟨rfl, htail⟩ := List.cons_prefix_cons.mp h
    rw [s.size_code _ hlen] at hx
    have hrun : x <+: run := List.prefix_of_prefix_length_le htail (List.prefix_append _ _) hx
    refine hrun.trans ?_
    rw [show run :: rs = [run] ++ rs from rfl]
    exact join_prefix_append [run] rs
  | run' :: init, run :: rs, a, x, hinit, hrs, ha, hx, h => by
    obtain ⟨⟨-, hlen'⟩, hinit'⟩ := valid_cons.mp hinit
    obtain ⟨⟨-, hlen⟩, hrs'⟩ := valid_cons.mp hrs
    rw [stuffed_cons, stuffed_cons, List.cons_append] at h
    obtain ⟨hcode, htail⟩ := List.cons_prefix_cons.mp h
    have hlength : run'.length = run.length := by
      rw [← s.size_code _ hlen', hcode, s.size_code _ hlen]
    rw [List.append_assoc] at htail
    have hrun : run' = run := (List.prefix_of_prefix_length_le
      ((List.prefix_append _ _).trans htail) (List.prefix_append _ _) hlength.le).eq_of_length hlength
    subst hrun
    rw [List.prefix_append_right_inj] at htail
    have ih := groups_prefix hinit' hrs' ha hx htail
    have hne : rs ≠ [] := by
      rintro rfl
      exact absurd (List.prefix_nil.mp htail) (by simp)
    rw [List.flatMap_cons, join_cons run' hne, closed, List.append_assoc, List.append_assoc,
      List.prefix_append_right_inj, List.prefix_append_right_inj]
    exact ih

/-! ## Saving the last code -/

/-- The last run, with its last element in the place of the code where that stands for a length
that the rest does not have. -/
def reducedGroup (s : Stuffing α) (run : List α) : List α :=
  match run.getLast? with
  | some a => if run.length ≤ s.size a then a :: run.dropLast else s.group run
  | none => s.group run

/-- The run that a last group stands for which may be reduced. -/
def restored (s : Stuffing α) (a : α) (x : List α) : List α :=
  if x.length < s.size a then x ++ [a] else x

/-- What is written for a string, the last run reduced. -/
def encodeReduced (s : Stuffing α) (b : List α) : List α :=
  s.stuffed (s.runs [] b).dropLast ++ s.reducedGroup ((s.runs [] b).getLastD [])

omit [DecidableEq α] in
/-- **The last run can be read back**, reduced or not. -/
theorem reducedGroup_restored {run : List α} (hrun : s.delimiter ∉ run)
    (hlen : run.length ≤ s.maxRun) : ∃ a x, s.reducedGroup run = a :: x ∧ a ≠ s.delimiter ∧
      s.delimiter ∉ x ∧ x.length ≤ s.size a ∧ s.restored a x = run := by
  have hplain : s.delimiter ≠ s.code run.length ∧ s.size (s.code run.length) = run.length ∧
      s.restored (s.code run.length) run = run := by
    refine ⟨(s.code_ne _ hlen).symm, s.size_code _ hlen, ?_⟩
    rw [restored, s.size_code _ hlen, if_neg (Nat.lt_irrefl _)]
  rcases List.eq_nil_or_concat' run with rfl | ⟨x, a, rfl⟩
  · exact ⟨_, _, rfl, hplain.1.symm, hrun, hplain.2.1.ge, hplain.2.2⟩
  · rw [reducedGroup, List.getLast?_concat, List.dropLast_concat]
    dsimp only
    split_ifs with hsize
    · rw [List.length_append, List.length_singleton] at hsize
      rw [List.mem_append, List.mem_singleton, not_or] at hrun
      exact ⟨a, x, rfl, fun h => hrun.2 h.symm, hrun.1, Nat.le_of_lt hsize, if_pos hsize⟩
    · exact ⟨_, _, rfl, hplain.1.symm, hrun, hplain.2.1.ge, hplain.2.2⟩

/-- A string that may be read as `b` where the last run may be reduced. -/
def Spells (s : Stuffing α) (w b : List α) : Prop :=
  w = [] ∧ b = [] ∨ ∃ init a x, s.Valid init ∧ a ≠ s.delimiter ∧ s.delimiter ∉ x ∧
    x.length ≤ s.size a ∧ w = s.stuffed init ++ a :: x ∧ b = init.flatMap s.closed ++ s.restored a x

omit [DecidableEq α] in
theorem spells_reducedGroup {init : List (List α)} {run : List α} (hvalid : s.Valid (init ++ [run])) :
    s.Spells (s.stuffed init ++ s.reducedGroup run) (init.flatMap s.closed ++ run) := by
  have hrun := hvalid run (List.mem_append_right _ (List.mem_singleton_self _))
  obtain ⟨a, x, hgroup, ha, hx, hlen, hrestored⟩ := reducedGroup_restored hrun.1 hrun.2
  exact Or.inr ⟨init, a, x, fun r hr => hvalid r (List.mem_append_left _ hr), ha, hx, hlen,
    by rw [hgroup], by rw [hrestored]⟩

theorem encodeReduced_eq {b : List α} {init : List (List α)} {run : List α}
    (hruns : s.runs [] b = init ++ [run]) :
    s.encodeReduced b = s.stuffed init ++ s.reducedGroup run := by
  rw [encodeReduced, hruns, List.dropLast_concat, List.getLastD_concat]

theorem spells_encodeReduced (b : List α) : s.Spells (s.encodeReduced b) b := by
  rcases List.eq_nil_or_concat' (s.runs [] b) with hnil | ⟨init, run, hruns⟩
  · exact absurd hnil (runs_ne_nil _ _)
  · have hspells := spells_reducedGroup (hruns ▸ valid_encode b)
    rwa [← join_concat, ← hruns, join_encode, ← encodeReduced_eq hruns] at hspells

omit [DecidableEq α] in
/-- What is written without a reduced run may be read so, too. -/
theorem Stuffs.spells {w b : List α} (h : s.Stuffs w b) : s.Spells w b := by
  by_cases hw : w = []
  · subst hw
    exact Or.inl ⟨rfl, h.unique .nil⟩
  · obtain ⟨init, run, hvalid, hwgroups, hb⟩ := h.groups hw
    obtain ⟨hrun, hlen⟩ := hvalid run (List.mem_append_right _ (List.mem_singleton_self _))
    refine Or.inr ⟨init, _, run, fun r hr => hvalid r (List.mem_append_left _ hr), s.code_ne _ hlen,
      hrun, (s.size_code _ hlen).ge, hwgroups, ?_⟩
    rw [restored, s.size_code _ hlen, if_neg (Nat.lt_irrefl _), hb]

omit [DecidableEq α] in
/-- **Every string without the delimiter can be read.** -/
theorem exists_spells {w : List α} (hw : s.delimiter ∉ w) : ∃ b, s.Spells w b := by
  by_cases hne : w = []
  · exact ⟨[], Or.inl ⟨hne, rfl⟩⟩
  · obtain ⟨init, a, x, hinit, rfl, hx⟩ := exists_groups (s := s) hne
    have hmem : s.delimiter ∉ a :: x := fun h => hw (List.mem_append_right _ h)
    rw [List.mem_cons, not_or] at hmem
    exact ⟨_, Or.inr ⟨init, a, x, valid_of_notMem hinit hw, Ne.symm hmem.1, hmem.2,
      hx (Ne.symm hmem.1), rfl, rfl⟩⟩

omit [DecidableEq α] in
/-- The delimiter is nowhere in a string that can be read. -/
theorem Spells.notMem {w b : List α} (h : s.Spells w b) : s.delimiter ∉ w := by
  rcases h with ⟨rfl, -⟩ | ⟨init, a, x, hvalid, ha, hx, -, rfl, -⟩
  · exact List.not_mem_nil
  · rw [List.mem_append, List.mem_cons, not_or, not_or]
    exact ⟨notMem_stuffed hvalid, Ne.symm ha, hx⟩

/-- How much is saved: one element, where the last one of the last run stands for a length that the
rest of the run does not have. -/
theorem length_encodeReduced {init : List (List α)} {run : List α} {b : List α}
    (hruns : s.runs [] b = init ++ [run]) : (s.encodeReduced b).length
      + (if ∃ a, run.getLast? = some a ∧ run.length ≤ s.size a then 1 else 0)
      = (s.encode b).length := by
  have hplain : (s.group run).length = run.length + 1 := List.length_cons
  rw [encodeReduced_eq hruns, encode, hruns, stuffed_concat, List.length_append,
    List.length_append, ← group, hplain]
  rcases List.eq_nil_or_concat' run with rfl | ⟨x, a, rfl⟩
  · rw [if_neg (by rintro ⟨a, ha, -⟩; exact absurd ha (by simp))]
    rfl
  · have hlast : (∃ b, (x ++ [a]).getLast? = some b ∧ (x ++ [a]).length ≤ s.size b)
        ↔ (x ++ [a]).length ≤ s.size a := by
      rw [List.getLast?_concat]
      exact ⟨fun ⟨b, hb, hsize⟩ => Option.some.inj hb ▸ hsize, fun h => ⟨a, rfl, h⟩⟩
    have hgroup : s.reducedGroup (x ++ [a])
        = if (x ++ [a]).length ≤ s.size a then a :: x else s.group (x ++ [a]) := by
      rw [reducedGroup, List.getLast?_concat, List.dropLast_concat]
    rw [hgroup]
    by_cases hsize : (x ++ [a]).length ≤ s.size a
    · rw [if_pos hsize, if_pos (hlast.mpr hsize), List.length_append, List.length_cons,
        List.length_singleton]
      omega
    · rw [if_neg hsize, if_neg (mt hlast.mp hsize), hplain]
      omega

end Stuffing

end EmbeddedTestbench.Lib
