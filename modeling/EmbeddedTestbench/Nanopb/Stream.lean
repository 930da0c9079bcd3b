import Mathlib.Data.List.Basic

/-!
# Input streams over a memory buffer (`pb_istream_t`)

`pb_istream_from_buffer` makes the only streams the program uses, so `callback` is `buf_read`
throughout and is left out; `pb_read` then never takes the branch that skips input in blocks of
16 bytes. `state` is the read pointer: it is modelled by the memory from the pointer on, which
may go on past `bytes_left` (a substream ends before its parent's buffer does).

`window w t e` is the stream that may read `w` and has `t` behind it. Every stream with
`bytes_left` inside its memory has this form (`InBounds.eq_window`), and a reader is described by
what it does on windows:
* `Reads f u a`: `f` answers `a` and consumes exactly `u`, whatever follows;
* `Windowed f`: `f` consumes a prefix of the window, and neither its answer nor that prefix
  depends on the memory behind the window. No byte outside the window is read.
* `Contained f`: besides, neither depends on an error message of before, which stays.
* `PrefixReader ok f`: all of it at once. On every window `f` either succeeds by reading a prefix,
  or fails inside the window and leaves at most one new error message.
-/

namespace EmbeddedTestbench.Nanopb

/-- `pb_istream_t` over a buffer. -/
structure IStream where
  /-- The memory from the read pointer on. -/
  state : List UInt8
  bytesLeft : Nat
  errmsg : Option String
  deriving DecidableEq, Repr

namespace IStream

/-- `PB_SET_ERROR`: the first message stays. -/
def setError (s : IStream) (msg : String) : IStream :=
  { s with errmsg := s.errmsg.or (some msg) }

/-- The stream that may read `w`, with `t` behind it in memory. -/
def window (w t : List UInt8) (e : Option String) : IStream := ⟨w ++ t, w.length, e⟩

/-- `bytes_left` stays inside the memory. -/
def InBounds (s : IStream) : Prop := s.bytesLeft ≤ s.state.length

end IStream

open IStream

/-- `pb_istream_from_buffer`. -/
def pbIstreamFromBuffer (buf : List UInt8) (bufsize : Nat) : IStream := ⟨buf, bufsize, none⟩

/-- `buf_read`: the `count` bytes at the read pointer, which moves past them. -/
def bufRead (s : IStream) (count : Nat) : List UInt8 × IStream :=
  (s.state.take count, { s with state := s.state.drop count })

/-- `pb_read`: the bytes read, or `none` when fewer than `count` are left. -/
def pbRead (s : IStream) (count : Nat) : Option (List UInt8) × IStream :=
  if s.bytesLeft < count then (none, s.setError "end-of-stream")
  else
    let (buf, s) := bufRead s count
    (some buf, { s with bytesLeft := s.bytesLeft - count })

/-- `pb_readbyte`. -/
def pbReadbyte (s : IStream) : Option UInt8 × IStream :=
  if s.bytesLeft = 0 then (none, s.setError "end-of-stream")
  else
    let (buf, s) := bufRead s 1
    (some (buf.headD 0), { s with bytesLeft := s.bytesLeft - 1 })

/-! ## Windows -/

@[simp] theorem window_bytesLeft (w t : List UInt8) (e : Option String) :
    (window w t e).bytesLeft = w.length := rfl

@[simp] theorem window_state (w t : List UInt8) (e : Option String) :
    (window w t e).state = w ++ t := rfl

@[simp] theorem window_errmsg (w t : List UInt8) (e : Option String) :
    (window w t e).errmsg = e := rfl

@[simp] theorem window_setError (w t : List UInt8) (e : Option String) (msg : String) :
    (window w t e).setError msg = window w t (e.or (some msg)) := rfl

theorem window_inj {w w' t t' : List UInt8} {e e' : Option String} :
    window w t e = window w' t' e' ↔ w = w' ∧ t = t' ∧ e = e' := by
  refine ⟨fun h => ?_, fun ⟨hw, ht, he⟩ => by rw [hw, ht, he]⟩
  obtain ⟨hs, hl, he⟩ := IStream.mk.inj h
  obtain ⟨hw, ht⟩ := List.append_inj hs hl
  exact ⟨hw, ht, he⟩

/-- A buffer given with a size inside it is a window. -/
theorem pbIstreamFromBuffer_append (w t : List UInt8) :
    pbIstreamFromBuffer (w ++ t) w.length = window w t none := rfl

theorem pbIstreamFromBuffer_self (b : List UInt8) :
    pbIstreamFromBuffer b b.length = window b [] none := by
  rw [← pbIstreamFromBuffer_append, List.append_nil]

/-! ## Readers -/

/-- `f` answers `a` and consumes exactly `u`, whatever follows it. -/
def Reads {α : Type} (f : IStream → α × IStream) (u : List UInt8) (a : α) : Prop :=
  ∀ r t e, f (window (u ++ r) t e) = (a, window r t e)

/-- `f` consumes a prefix of the window, and its answer and that prefix do not depend on the
memory behind the window. -/
def Windowed {α : Type} (f : IStream → α × IStream) : Prop :=
  ∀ w e, ∃ a u r e', w = u ++ r ∧ ∀ t, f (window w t e) = (a, window r t e')

/-- `f` consumes a prefix of the window, and its answer and that prefix depend on the window alone.
An earlier error message stays, and the new one depends on the window alone too. -/
def Contained {α : Type} (f : IStream → α × IStream) : Prop :=
  ∀ w, ∃ u r a msg, w = u ++ r ∧
    ∀ (t : List UInt8) (e : Option String), f (window w t e) = (a, window r t (e.or msg))

/-- On every window `f` either succeeds (`ok`) and what it consumed alone decides that, or fails
somewhere inside the window; an earlier error message stays. -/
def PrefixReader {α : Type} (ok : α → Prop) (f : IStream → α × IStream) : Prop :=
  ∀ w, ∃ u r a, w = u ++ r ∧ (ok a ∧ Reads f u a ∨
    ¬ ok a ∧ ∃ msg : Option String, ∀ t e, f (window w t e) = (a, window r t (e.or msg)))

theorem Contained.windowed {α : Type} {f : IStream → α × IStream} (h : Contained f) :
    Windowed f := by
  intro w e
  obtain ⟨u, r, a, msg, rfl, hf⟩ := h w
  exact ⟨a, u, r, e.or msg, rfl, fun t => hf t e⟩

theorem PrefixReader.contained {α : Type} {ok : α → Prop} {f : IStream → α × IStream}
    (h : PrefixReader ok f) : Contained f := by
  intro w
  obtain ⟨u, r, a, rfl, ⟨-, hr⟩ | ⟨-, msg, hf⟩⟩ := h w
  · refine ⟨u, r, a, none, rfl, fun t e => ?_⟩
    rw [hr r t e, Option.or_none]
  · exact ⟨u, r, a, msg, rfl, hf⟩

theorem PrefixReader.windowed {α : Type} {ok : α → Prop} {f : IStream → α × IStream}
    (h : PrefixReader ok f) : Windowed f :=
  h.contained.windowed

/-- A reader that reads nothing. -/
theorem contained_pure {α : Type} (a : α) : Contained (fun s => (a, s)) := fun w =>
  ⟨[], w, a, none, rfl, fun t e => by rw [Option.or_none]⟩

theorem contained_setError {α : Type} (a : α) (msg : String) :
    Contained (fun s => (a, s.setError msg)) := fun w =>
  ⟨[], w, a, some msg, rfl, fun _ _ => rfl⟩

/-- **Contained readers compose**: `g` runs `f`, and goes on by its answer. -/
theorem Contained.step {α β : Type} {f : IStream → α × IStream} {g : IStream → β × IStream}
    (hf : Contained f)
    (h : ∀ a, ∃ k, Contained k ∧ ∀ s s', f s = (a, s') → g s = k s') : Contained g := by
  intro w
  obtain ⟨u, r, a, msg, rfl, hrun⟩ := hf w
  obtain ⟨k, hk, hg⟩ := h a
  obtain ⟨u', r', b, msg', rfl, hrun'⟩ := hk r
  refine ⟨u ++ u', r', b, msg.or msg', (List.append_assoc _ _ _).symm, fun t e => ?_⟩
  rw [hg _ _ (hrun t e), hrun' t, Option.or_assoc]

/-- A reader that does something else at the end of the window. -/
theorem Contained.ite_nil {α : Type} {f g : IStream → α × IStream} (hf : Contained f)
    (hg : Contained g) : Contained (fun s => if s.bytesLeft = 0 then f s else g s) := by
  intro w
  rcases w with - | ⟨b, w⟩
  · obtain ⟨u, r, a, msg, hw, hrun⟩ := hf []
    exact ⟨u, r, a, msg, hw, hrun⟩
  · obtain ⟨u, r, a, msg, hw, hrun⟩ := hg (b :: w)
    exact ⟨u, r, a, msg, hw, fun t e => (if_neg (by simp)).trans (hrun t e)⟩

/-- A success of a prefix reader is a read of the prefix it consumed. -/
theorem PrefixReader.reads_of_ok {α : Type} {ok : α → Prop} {f : IStream → α × IStream}
    (h : PrefixReader ok f) {w t : List UInt8} {e : Option String} {a : α} {s : IStream}
    (hf : f (window w t e) = (a, s)) (ha : ok a) :
    ∃ u r, w = u ++ r ∧ s = window r t e ∧ Reads f u a := by
  obtain ⟨u, r, a', rfl, ⟨-, hr⟩ | ⟨hn, msg, hf'⟩⟩ := h w
  · rw [hr r t e, Prod.mk.injEq] at hf
    obtain ⟨rfl, rfl⟩ := hf
    exact ⟨u, r, rfl, rfl, hr⟩
  · rw [hf' t e, Prod.mk.injEq] at hf
    exact absurd (hf.1 ▸ ha) hn

/-- A prefix reader whose answer is rewritten is one. -/
theorem PrefixReader.map {α β : Type} {ok : α → Prop} {ok' : β → Prop}
    {f : IStream → α × IStream} (hf : PrefixReader ok f) (g : α → β)
    (hg : ∀ a, ok' (g a) ↔ ok a) : PrefixReader ok' (fun s => (g (f s).1, (f s).2)) := by
  intro w
  obtain ⟨u, r, a, rfl, ⟨ha, hr⟩ | ⟨ha, msg, hfail⟩⟩ := hf w
  · exact ⟨u, r, g a, rfl, Or.inl ⟨(hg a).mpr ha, fun r' t e => by simp only [hr r' t e]⟩⟩
  · exact ⟨u, r, g a, rfl, Or.inr ⟨fun h => ha ((hg a).mp h), msg, fun t e => by
      simp only [hfail t e]⟩⟩

/-- On a window that starts with `b`: a reader that takes it, and goes on as `g`. -/
theorem PrefixReader.cons {α : Type} {ok : α → Prop} {f g : IStream → α × IStream} {b : UInt8}
    {w : List UInt8} (h : ∀ w t e, f (window (b :: w) t e) = g (window w t e))
    (hg : ∃ u r a, w = u ++ r ∧ (ok a ∧ Reads g u a ∨
      ¬ ok a ∧ ∃ msg : Option String, ∀ t e, g (window w t e) = (a, window r t (e.or msg)))) :
    ∃ u r a, b :: w = u ++ r ∧ (ok a ∧ Reads f u a ∨
      ¬ ok a ∧ ∃ msg : Option String,
        ∀ t e, f (window (b :: w) t e) = (a, window r t (e.or msg))) := by
  obtain ⟨u, r, a, rfl, ⟨ha, hr⟩ | ⟨ha, msg, hf⟩⟩ := hg
  · refine ⟨b :: u, r, a, rfl, Or.inl ⟨ha, fun r' t e => ?_⟩⟩
    rw [List.cons_append, h, hr r' t e]
  · refine ⟨b :: u, r, a, rfl, Or.inr ⟨ha, msg, fun t e => ?_⟩⟩
    rw [h, hf t e]

/-- Run `f`; on failure answer `b`, on success go on with `k`. -/
def andThen {α β : Type} (f : IStream → Option α × IStream) (b : β)
    (k : α → IStream → β × IStream) (s : IStream) : β × IStream :=
  match f s with
  | (none, s) => (b, s)
  | (some a, s) => k a s

/-- Two reads in a row. -/
theorem Reads.andThen {α β : Type} {f : IStream → Option α × IStream} {b : β}
    {k : α → IStream → β × IStream} {u u' : List UInt8} {a : α} {a' : β}
    (hf : Reads f u (some a)) (hk : Reads (k a) u' a') : Reads (andThen f b k) (u ++ u') a' := by
  intro r t e
  unfold Nanopb.andThen
  rw [List.append_assoc, hf (u' ++ r) t e]
  exact hk r t e

/-- **Prefix readers compose.** -/
theorem PrefixReader.andThen {α β : Type} {ok : β → Prop} {f : IStream → Option α × IStream}
    {b : β} {k : α → IStream → β × IStream} (hf : PrefixReader (fun a => a.isSome = true) f)
    (hb : ¬ ok b) (hk : ∀ a, PrefixReader ok (k a)) : PrefixReader ok (andThen f b k) := by
  intro w
  obtain ⟨u, r, a, rfl, ⟨ha, hr⟩ | ⟨ha, msg, hfail⟩⟩ := hf w
  · obtain ⟨v, rfl⟩ := Option.isSome_iff_exists.mp ha
    obtain ⟨u', r', a', rfl, ⟨ha', hr'⟩ | ⟨ha', msg, hfail⟩⟩ := hk v r
    · exact ⟨u ++ u', r', a', by rw [List.append_assoc], Or.inl ⟨ha', hr.andThen hr'⟩⟩
    · refine ⟨u ++ u', r', a', by rw [List.append_assoc], Or.inr ⟨ha', msg, fun t e => ?_⟩⟩
      unfold Nanopb.andThen
      rw [hr (u' ++ r') t e]
      exact hfail t e
  · obtain rfl := Option.not_isSome_iff_eq_none.mp ha
    refine ⟨u, r, b, rfl, Or.inr ⟨hb, msg, fun t e => ?_⟩⟩
    unfold Nanopb.andThen
    rw [hfail t e]

/-- A reader that reads a prefix of the window reads one prefix only. -/
theorem Reads.unique {α : Type} {f : IStream → α × IStream} {u u' r r' : List UInt8} {a a' : α}
    (h : Reads f u a) (h' : Reads f u' a') (e : u ++ r = u' ++ r') :
    u = u' ∧ r = r' ∧ a = a' := by
  have h1 := h r [] none
  rw [e, h' r' [] none, Prod.mk.injEq, window_inj] at h1
  obtain ⟨rfl, rfl, -, -⟩ := h1
  exact ⟨List.append_cancel_right e, rfl, rfl⟩

/-! ## `pb_read` and `pb_readbyte` on a window -/

/-- A read of what is left succeeds and moves past it. -/
theorem pbRead_window (u r t : List UInt8) (e : Option String) :
    pbRead (window (u ++ r) t e) u.length = (some u, window r t e) := by
  have hlen : ¬ (u ++ r).length < u.length := by simp
  simp only [pbRead, bufRead, window_bytesLeft, window_state, if_neg hlen, window_errmsg,
    List.append_assoc, List.take_left, List.drop_left, Prod.mk.injEq, true_and]
  simp [window]

theorem pbRead_reads (u : List UInt8) : Reads (fun s => pbRead s u.length) u (some u) :=
  fun r t e => pbRead_window u r t e

/-- A read past the end fails and moves nothing. -/
theorem pbRead_short {w : List UInt8} {n : Nat} (h : w.length < n) (t : List UInt8)
    (e : Option String) :
    pbRead (window w t e) n = (none, window w t (e.or (some "end-of-stream"))) := by
  unfold pbRead
  rw [if_pos (by simpa using h), window_setError]

theorem pbRead_prefixReader (n : Nat) :
    PrefixReader (fun a => a.isSome = true) (fun s => pbRead s n) := by
  intro w
  by_cases h : n ≤ w.length
  · have hlen : (w.take n).length = n := by simp [h]
    have := pbRead_reads (w.take n)
    rw [hlen] at this
    exact ⟨w.take n, w.drop n, _, (List.take_append_drop n w).symm, Or.inl ⟨rfl, this⟩⟩
  · exact ⟨[], w, none, rfl, Or.inr ⟨by simp, some "end-of-stream",
      fun t e => pbRead_short (by omega) t e⟩⟩

theorem pbReadbyte_cons (b : UInt8) (w t : List UInt8) (e : Option String) :
    pbReadbyte (window (b :: w) t e) = (some b, window w t e) := rfl

end EmbeddedTestbench.Nanopb
