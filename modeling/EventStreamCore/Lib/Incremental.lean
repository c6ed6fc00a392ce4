/-!
# Incremental decoding of a chunked stream

General support, independent of any wire format. A `Framer` looks at the unread
input of a stream from a small control state and either takes a non-empty prefix of
it, asks for more input, or halts. Its laws say that a verdict other than asking
for more does not depend on later input, and that asking for more may refresh the
control state only in a way that a second look at the longer input cannot observe.
Under these laws the outputs and the final verdict depend on the stream alone, not
on how it was split into chunks (`feed_eq_drain_flatten`).
-/

namespace EventStreamCore.Lib

universe u v w

/-- The outcome of one look at the unread input. -/
inductive Verdict (σ : Type u) (ω : Type w) where
  | need (state : σ)
  | take (count : Nat) (out : List ω) (state : σ)
  | halt

/-- One-look decoder with the laws that make it insensitive to chunking. -/
structure Framer (σ : Type u) (α : Type v) (ω : Type w) where
  look : σ → List α → Verdict σ ω
  take_le : ∀ {s xs n out t}, look s xs = .take n out t → 0 < n ∧ n ≤ xs.length
  take_append : ∀ {s xs n out t}, look s xs = .take n out t →
    ∀ ys, look s (xs ++ ys) = .take n out t
  halt_append : ∀ {s xs}, look s xs = .halt → ∀ ys, look s (xs ++ ys) = .halt
  need_resume : ∀ {s xs t}, look s xs = .need t → ∀ ys, look t (xs ++ ys) = look s (xs ++ ys)

namespace Framer

variable {σ : Type u} {α : Type v} {ω : Type w}

/-- Repeat `look` until it stops. The result holds the outputs and, unless the
decoder halted, the control state and the unread rest. -/
def drain (f : Framer σ α ω) (s : σ) (xs : List α) : List ω × Option (σ × List α) :=
  match _h : f.look s xs with
  | .need t => ([], some (t, xs))
  | .take n out t =>
    let rest := f.drain t (xs.drop n)
    (out ++ rest.1, rest.2)
  | .halt => ([], none)
termination_by xs.length
decreasing_by
  have := f.take_le _h
  simp only [List.length_drop]
  omega

/-- Drain the unread rest of earlier chunks together with each new chunk. -/
def feed (f : Framer σ α ω) : σ × List α → List (List α) → List ω × Option (σ × List α)
  | st, [] => ([], some st)
  | (s, rest), chunk :: chunks =>
    match f.drain s (rest ++ chunk) with
    | (out, none) => (out, none)
    | (out, some st) =>
      let later := f.feed st chunks
      (out ++ later.1, later.2)

/-- A drain that has to wait produces nothing. -/
theorem drain_need (f : Framer σ α ω) {s t : σ} {xs : List α} (h : f.look s xs = .need t) :
    f.drain s xs = ([], some (t, xs)) := by
  rw [drain]
  split <;> simp_all

/-- A drain that can take a prefix goes on behind it. -/
theorem drain_take (f : Framer σ α ω) {s t : σ} {xs : List α} {n : Nat} {out : List ω}
    (h : f.look s xs = .take n out t) :
    f.drain s xs = (out ++ (f.drain t (xs.drop n)).1, (f.drain t (xs.drop n)).2) := by
  rw [drain]
  split <;> simp_all

/-- A halting drain produces nothing more. -/
theorem drain_halt (f : Framer σ α ω) {s : σ} {xs : List α} (h : f.look s xs = .halt) :
    f.drain s xs = ([], none) := by
  rw [drain]
  split <;> simp_all

/-- Draining twice around a wait is draining once: the rest of a first drain, extended
by new input, gives what the extended input would have given from the start. -/
theorem drain_append (f : Framer σ α ω) (s : σ) (xs ys : List α) :
    f.drain s (xs ++ ys) =
      match f.drain s xs with
      | (out, none) => (out, none)
      | (out, some (t, rest)) =>
        (out ++ (f.drain t (rest ++ ys)).1, (f.drain t (rest ++ ys)).2) := by
  induction h : xs.length using Nat.strongRecOn generalizing s xs with
  | ind len ih =>
    cases hl : f.look s xs with
    | need t =>
      rw [drain_need f hl]
      simp only [List.nil_append]
      -- the second look sees the same input, so it continues as the first would have
      have hr := f.need_resume hl ys
      rw [drain.eq_1 f s, drain.eq_1 f t]
      split <;> split <;> simp_all
    | take n out t =>
      have hn := f.take_le hl
      have hd : (xs ++ ys).drop n = xs.drop n ++ ys := List.drop_append_of_le_length hn.2
      have hi := ih (xs.drop n).length (by rw [List.length_drop]; omega) t (xs.drop n) rfl
      rw [drain_take f (f.take_append hl ys), drain_take f hl, hd, hi]
      rcases f.drain t (xs.drop n) with ⟨o, _ | ⟨u, rest⟩⟩
      · rfl
      · simp only [List.append_assoc]
    | halt => rw [drain_halt f (f.halt_append hl ys), drain_halt f hl]

/-- The rest of a drain is where the decoder waits. -/
theorem drain_rest_needs (f : Framer σ α ω) {s t : σ} {xs rest : List α} {out : List ω}
    (h : f.drain s xs = (out, some (t, rest))) : ∃ r, f.look r rest = .need t := by
  induction hn : xs.length using Nat.strongRecOn generalizing s xs out with
  | ind len ih =>
    cases hl : f.look s xs with
    | need u =>
      rw [drain_need f hl] at h
      simp only [Prod.mk.injEq, Option.some.injEq] at h
      obtain ⟨-, rfl, rfl⟩ := h
      exact ⟨s, hl⟩
    | take n o u =>
      have hle := f.take_le hl
      rw [drain_take f hl] at h
      have hd : f.drain u (xs.drop n) = ((f.drain u (xs.drop n)).1, some (t, rest)) :=
        Prod.ext rfl (Prod.mk.inj h).2
      exact ih (xs.drop n).length (by rw [List.length_drop]; omega) hd rfl
    | halt =>
      rw [drain_halt f hl] at h
      cases h

/-- Feeding chunks to a decoder that waits is draining their concatenation once. -/
theorem feed_eq_drain (f : Framer σ α ω) {r s : σ} {rest : List α}
    (hw : f.look r rest = .need s) (chunks : List (List α)) :
    f.feed (s, rest) chunks = f.drain s (rest ++ chunks.flatten) := by
  induction chunks generalizing r s rest with
  | nil =>
    have hs : f.look s rest = .need s := by
      have := f.need_resume hw []
      rwa [List.append_nil, hw] at this
    rw [feed, List.flatten_nil, List.append_nil, drain_need f hs]
  | cons chunk chunks ih =>
    rw [feed, List.flatten_cons, ← List.append_assoc, drain_append f s (rest ++ chunk)]
    cases hd : f.drain s (rest ++ chunk) with
    | mk out result =>
      cases result with
      | none => rfl
      | some st =>
        obtain ⟨t, rest'⟩ := st
        obtain ⟨q, hq⟩ := f.drain_rest_needs hd
        simp only [ih hq]

/-- Feeding is compositional in the list of chunks. -/
theorem feed_append (f : Framer σ α ω) (st : σ × List α) (xs ys : List (List α)) :
    f.feed st (xs ++ ys) =
      match f.feed st xs with
      | (out, none) => (out, none)
      | (out, some st') => (out ++ (f.feed st' ys).1, (f.feed st' ys).2) := by
  induction xs generalizing st with
  | nil => rfl
  | cons chunk xs ih =>
    rw [List.cons_append, feed, feed]
    rcases f.drain st.1 (st.2 ++ chunk) with ⟨out, _ | st'⟩
    · rfl
    · simp only [ih]
      rcases f.feed st' xs with ⟨o, _ | u⟩
      · rfl
      · simp only [List.append_assoc]

/-- From an empty buffer the outputs and the verdict depend on the stream alone. -/
theorem feed_eq_drain_flatten (f : Framer σ α ω) {s : σ} (hw : f.look s [] = .need s)
    (chunks : List (List α)) : f.feed (s, []) chunks = f.drain s chunks.flatten := by
  rw [feed_eq_drain f hw, List.nil_append]

end Framer
end EventStreamCore.Lib
