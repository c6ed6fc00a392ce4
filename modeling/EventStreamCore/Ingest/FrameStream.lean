import EventStreamCore.Lib.Incremental
import EventStreamCore.Ingest.FrameParser

/-!
# Length-prefix framing of a byte stream

The parse loop that `src/core/ingest/tcp.cpp:191–260` and
`src/core/ingest/epoll.cpp:386–475` spell out twice, one iteration at a time, and the
reference decoder of a whole stream. An iteration waits, skips an empty frame,
extracts a frame, or meets one of the two guards; what a guard then does to the
connection is the servers' own. As a `Framer` the loop is insensitive to chunking.
-/

namespace EventStreamCore.Ingest
open EventStreamCore.Lib EventStreamCore.Events

/-- Outcome of one iteration. The waiting, skipping and guarded outcomes carry the new
count of consecutive empty frames; an extracted frame resets it. -/
inductive Iteration where
  | wait (emptyFrameCount : Nat)
  | skip (emptyFrameCount : Nat)
  | extract (frameLen : Nat)
  | violation (emptyFrameCount : Nat)
deriving DecidableEq, Repr

/-- The big-endian length at `offset`, as the loops assemble it; `tcp.cpp:196–199`. -/
def headerAt (buf : Bytes) (offset : Nat) : Nat :=
  (buf[offset]?.getD 0).toNat <<< 24 ||| (buf[offset + 1]?.getD 0).toNat <<< 16 |||
    (buf[offset + 2]?.getD 0).toNat <<< 8 ||| (buf[offset + 3]?.getD 0).toNat

/-- One pass of the loop body up to the extraction; `tcp.cpp:192–231`, `epoll.cpp:390–432`. -/
def frameIteration (maxFrame maxEmpty : Nat) (buf : Bytes) (offset emptyFrameCount : Nat) :
    Iteration :=
  let remaining := buf.length - offset
  if remaining < 4 then .wait emptyFrameCount
  else
    let frameLen := headerAt buf offset
    if frameLen = 0 then
      if emptyFrameCount + 1 > maxEmpty then .violation (emptyFrameCount + 1)
      else .skip (emptyFrameCount + 1)
    else if frameLen > maxFrame then .violation 0
    else if remaining < 4 + frameLen then .wait 0
    else .extract frameLen

/-- What a complete frame hands to the dispatcher: the parsed triple, or nothing when the
parser throws and the loop logs and goes on; `tcp.cpp:233–260`. -/
def dispatchFrame (fullFrame : Bytes) : List ParsedFrame :=
  match parseFullFrame fullFrame with
  | .ok parsed => [parsed]
  | .error _ => []

/-- The reference decoder of a whole stream: the triples handed over and whether the
connection is ended by the stream itself. -/
def referenceDecode (maxFrame maxEmpty : Nat) (emptyFrameCount : Nat) :
    Bytes → List ParsedFrame × Bool
  | b0 :: b1 :: b2 :: b3 :: rest =>
    let frameLen := ofBigEndian [b0, b1, b2, b3]
    if frameLen = 0 then
      if emptyFrameCount + 1 > maxEmpty then ([], true)
      else referenceDecode maxFrame maxEmpty (emptyFrameCount + 1) rest
    else if frameLen > maxFrame then ([], true)
    else if rest.length < frameLen then ([], false)
    else
      let later := referenceDecode maxFrame maxEmpty 0 (rest.drop frameLen)
      (dispatchFrame (b0 :: b1 :: b2 :: b3 :: rest.take frameLen) ++ later.1, later.2)
  | _ => ([], false)
termination_by s => s.length
decreasing_by
  · simp only [List.length_cons]; omega
  · simp only [List.length_cons, List.length_drop]; omega

/-- A way to receive a stream in non-empty pieces of at most `limit` bytes. -/
structure Chunking (limit : Nat) (stream : Bytes) where
  chunks : List Bytes
  nonempty : ∀ c ∈ chunks, c ≠ []
  bounded : ∀ c ∈ chunks, c.length ≤ limit
  flatten_eq : chunks.flatten = stream

/-- What `recv` reports below zero: nothing to read now, or a real error. -/
inductive RecvError where
  | wouldBlock
  | failed
deriving DecidableEq, Repr

/-- A `recv` result; a successful read of no bytes is the peer's close. -/
abbrev Recv := Except RecvError Bytes

/-! ### One iteration -/

variable {maxFrame maxEmpty : Nat}

/-- The header is the big-endian number of its four bytes. -/
theorem headerAt_cons (b0 b1 b2 b3 : UInt8) (rest : Bytes) :
    headerAt (b0 :: b1 :: b2 :: b3 :: rest) 0 = ofBigEndian [b0, b1, b2, b3] :=
  shift_or_eq_ofBigEndian b0 b1 b2 b3

/-- An offset into the buffer is the start of the buffer's rest. -/
theorem headerAt_drop (buf : Bytes) (offset : Nat) :
    headerAt buf offset = headerAt (buf.drop offset) 0 := by
  simp only [headerAt, List.getElem?_drop, Nat.add_zero, Nat.zero_add]

/-- An iteration looks only at the bytes from its offset on. -/
theorem frameIteration_drop (buf : Bytes) (offset count : Nat) :
    frameIteration maxFrame maxEmpty buf offset count =
      frameIteration maxFrame maxEmpty (buf.drop offset) 0 count := by
  simp only [frameIteration, List.length_drop, Nat.sub_zero, headerAt_drop buf offset]

/-- With fewer than four bytes the loop waits and leaves the count alone. -/
theorem frameIteration_short {xs : Bytes} (h : xs.length < 4) (count : Nat) :
    frameIteration maxFrame maxEmpty xs 0 count = .wait count := by
  simp [frameIteration, h]

/-- With a header in sight the iteration is decided by the declared length. -/
theorem frameIteration_cons (b0 b1 b2 b3 : UInt8) (rest : Bytes) (count : Nat) :
    frameIteration maxFrame maxEmpty (b0 :: b1 :: b2 :: b3 :: rest) 0 count =
      if ofBigEndian [b0, b1, b2, b3] = 0 then
        if count + 1 > maxEmpty then .violation (count + 1) else .skip (count + 1)
      else if ofBigEndian [b0, b1, b2, b3] > maxFrame then .violation 0
      else if rest.length < ofBigEndian [b0, b1, b2, b3] then .wait 0
      else .extract (ofBigEndian [b0, b1, b2, b3]) := by
  have hl : (b0 :: b1 :: b2 :: b3 :: rest).length - 0 = 4 + rest.length := by
    simp only [List.length_cons]
    omega
  simp only [frameIteration, hl, headerAt_cons]
  rw [if_neg (by omega)]
  generalize ofBigEndian [b0, b1, b2, b3] = L
  simp only [Nat.add_lt_add_iff_left]

theorem headed (xs : Bytes) :
    xs.length < 4 ∨ ∃ b0 b1 b2 b3 rest, xs = b0 :: b1 :: b2 :: b3 :: rest := by
  match xs with
  | [] | [_] | [_, _] | [_, _, _] => exact .inl (by simp)
  | b0 :: b1 :: b2 :: b3 :: rest => exact .inr ⟨b0, b1, b2, b3, rest, rfl⟩

/-! ### The loop as a framer -/

/-- One look of the loop at its unread bytes. -/
def frameLook (maxFrame maxEmpty count : Nat) (xs : Bytes) : Verdict Nat ParsedFrame :=
  match frameIteration maxFrame maxEmpty xs 0 count with
  | .wait c => .need c
  | .skip c => .take 4 [] c
  | .extract frameLen => .take (4 + frameLen) (dispatchFrame (xs.take (4 + frameLen))) 0
  | .violation _ => .halt

theorem frameLook_short {xs : Bytes} (h : xs.length < 4) (count : Nat) :
    frameLook maxFrame maxEmpty count xs = .need count := by
  rw [frameLook, frameIteration_short h]

theorem frameLook_cons (maxFrame maxEmpty : Nat) (b0 b1 b2 b3 : UInt8) (rest : Bytes)
    (count : Nat) :
    frameLook maxFrame maxEmpty count (b0 :: b1 :: b2 :: b3 :: rest) =
      if ofBigEndian [b0, b1, b2, b3] = 0 then
        if count + 1 > maxEmpty then .halt else .take 4 [] (count + 1)
      else if ofBigEndian [b0, b1, b2, b3] > maxFrame then .halt
      else if rest.length < ofBigEndian [b0, b1, b2, b3] then .need 0
      else .take (4 + ofBigEndian [b0, b1, b2, b3])
        (dispatchFrame (b0 :: b1 :: b2 :: b3 :: rest.take (ofBigEndian [b0, b1, b2, b3]))) 0 := by
  rw [frameLook, frameIteration_cons]
  generalize ofBigEndian [b0, b1, b2, b3] = L
  have ht : (b0 :: b1 :: b2 :: b3 :: rest).take (4 + L) = b0 :: b1 :: b2 :: b3 :: rest.take L := by
    rw [Nat.add_comm]
    rfl
  by_cases h0 : L = 0
  · by_cases he : count + 1 > maxEmpty
    · simp only [h0, he, if_true]
    · simp only [h0, he, if_true, if_false]
  · by_cases hm : L > maxFrame
    · simp only [h0, hm, if_true, if_false]
    · by_cases hs : rest.length < L
      · simp only [h0, hm, hs, if_true, if_false]
      · simp only [h0, hm, hs, if_false, ht]

private theorem frameLook_take_le {count : Nat} {xs : Bytes} {n : Nat} {out : List ParsedFrame}
    {c : Nat} (h : frameLook maxFrame maxEmpty count xs = .take n out c) :
    0 < n ∧ n ≤ xs.length := by
  obtain hs | ⟨b0, b1, b2, b3, rest, rfl⟩ := headed xs
  · rw [frameLook_short hs] at h
    cases h
  · rw [frameLook_cons] at h
    simp only [List.length_cons]
    split at h
    · split at h
      · cases h
      · cases h
        omega
    · split at h
      · cases h
      · split at h
        · cases h
        · cases h
          omega

-- A look that sees a header decides by the header, unless the frame is incomplete.
private theorem frameLook_append (count : Nat) (xs ys : Bytes) :
    frameLook maxFrame maxEmpty count xs = .need count ∨
    (frameLook maxFrame maxEmpty count xs = .need 0 ∧
      frameLook maxFrame maxEmpty 0 (xs ++ ys) = frameLook maxFrame maxEmpty count (xs ++ ys)) ∨
    ((∀ c, frameLook maxFrame maxEmpty count xs ≠ .need c) ∧
      frameLook maxFrame maxEmpty count (xs ++ ys) = frameLook maxFrame maxEmpty count xs) := by
  obtain hs | ⟨b0, b1, b2, b3, rest, rfl⟩ := headed xs
  · exact .inl (frameLook_short hs count)
  · right
    simp only [List.cons_append, frameLook_cons, List.length_append]
    by_cases h0 : ofBigEndian [b0, b1, b2, b3] = 0
    · right
      simp only [h0, if_true, and_true]
      split <;> simp
    · by_cases hm : ofBigEndian [b0, b1, b2, b3] > maxFrame
      · right
        simp [h0, hm]
      · by_cases hs : rest.length < ofBigEndian [b0, b1, b2, b3]
        · left
          simp only [h0, hm, hs, if_true, if_false, and_self]
        · right
          have hs' : ¬ rest.length + ys.length < ofBigEndian [b0, b1, b2, b3] := by omega
          simp [h0, hm, hs, hs', List.take_append_of_le_length (Nat.le_of_not_lt hs)]

/-- The parse loop with given limits, as a chunk-insensitive decoder. The control state
is the count of consecutive empty frames. -/
def frameFramer (maxFrame maxEmpty : Nat) : Framer Nat UInt8 ParsedFrame where
  look := frameLook maxFrame maxEmpty
  take_le := frameLook_take_le
  take_append := by
    intro s xs n out t h ys
    obtain hn | ⟨hn, -⟩ | ⟨-, he⟩ := frameLook_append s xs ys
    · rw [hn] at h; cases h
    · rw [hn] at h; cases h
    · rw [he, h]
  halt_append := by
    intro s xs h ys
    obtain hn | ⟨hn, -⟩ | ⟨-, he⟩ := frameLook_append s xs ys
    · rw [hn] at h; cases h
    · rw [hn] at h; cases h
    · rw [he, h]
  need_resume := by
    intro s xs t h ys
    obtain hn | ⟨hn, hr⟩ | ⟨hn, -⟩ := frameLook_append s xs ys
    · rw [hn] at h; cases h; rfl
    · rw [hn] at h; cases h; exact hr
    · exact False.elim (hn t h)

/-! ### Draining a stream frame by frame -/

section Drain

variable (b0 b1 b2 b3 : UInt8) (rest : Bytes) (count : Nat)

private theorem drain_short {xs : Bytes} (h : xs.length < 4) :
    (frameFramer maxFrame maxEmpty).drain count xs = ([], some (count, xs)) :=
  Framer.drain_need (frameFramer maxFrame maxEmpty) (frameLook_short h count)

private theorem drain_skip (h0 : ofBigEndian [b0, b1, b2, b3] = 0) (he : ¬ count + 1 > maxEmpty) :
    (frameFramer maxFrame maxEmpty).drain count (b0 :: b1 :: b2 :: b3 :: rest) =
      (frameFramer maxFrame maxEmpty).drain (count + 1) rest := by
  have hl := frameLook_cons maxFrame maxEmpty b0 b1 b2 b3 rest count
  rw [if_pos h0, if_neg he] at hl
  rw [Framer.drain_take (frameFramer maxFrame maxEmpty) hl]
  rfl

private theorem drain_tooManyEmpty (h0 : ofBigEndian [b0, b1, b2, b3] = 0)
    (he : count + 1 > maxEmpty) :
    (frameFramer maxFrame maxEmpty).drain count (b0 :: b1 :: b2 :: b3 :: rest) = ([], none) := by
  have hl := frameLook_cons maxFrame maxEmpty b0 b1 b2 b3 rest count
  rw [if_pos h0, if_pos he] at hl
  exact Framer.drain_halt (frameFramer maxFrame maxEmpty) hl

private theorem drain_tooLong (h0 : ¬ ofBigEndian [b0, b1, b2, b3] = 0)
    (hm : ofBigEndian [b0, b1, b2, b3] > maxFrame) :
    (frameFramer maxFrame maxEmpty).drain count (b0 :: b1 :: b2 :: b3 :: rest) = ([], none) := by
  have hl := frameLook_cons maxFrame maxEmpty b0 b1 b2 b3 rest count
  rw [if_neg h0, if_pos hm] at hl
  exact Framer.drain_halt (frameFramer maxFrame maxEmpty) hl

private theorem drain_incomplete (h0 : ¬ ofBigEndian [b0, b1, b2, b3] = 0)
    (hm : ¬ ofBigEndian [b0, b1, b2, b3] > maxFrame)
    (hs : rest.length < ofBigEndian [b0, b1, b2, b3]) :
    (frameFramer maxFrame maxEmpty).drain count (b0 :: b1 :: b2 :: b3 :: rest) =
      ([], some (0, b0 :: b1 :: b2 :: b3 :: rest)) := by
  have hl := frameLook_cons maxFrame maxEmpty b0 b1 b2 b3 rest count
  rw [if_neg h0, if_neg hm, if_pos hs] at hl
  exact Framer.drain_need (frameFramer maxFrame maxEmpty) hl

private theorem drain_frame (h0 : ¬ ofBigEndian [b0, b1, b2, b3] = 0)
    (hm : ¬ ofBigEndian [b0, b1, b2, b3] > maxFrame)
    (hs : ¬ rest.length < ofBigEndian [b0, b1, b2, b3]) :
    (frameFramer maxFrame maxEmpty).drain count (b0 :: b1 :: b2 :: b3 :: rest) =
      (dispatchFrame (b0 :: b1 :: b2 :: b3 :: rest.take (ofBigEndian [b0, b1, b2, b3])) ++
        ((frameFramer maxFrame maxEmpty).drain 0
          (rest.drop (ofBigEndian [b0, b1, b2, b3]))).1,
        ((frameFramer maxFrame maxEmpty).drain 0
          (rest.drop (ofBigEndian [b0, b1, b2, b3]))).2) := by
  have hl := frameLook_cons maxFrame maxEmpty b0 b1 b2 b3 rest count
  have hd (n : Nat) : (b0 :: b1 :: b2 :: b3 :: rest).drop (4 + n) = rest.drop n := by
    rw [Nat.add_comm]
    rfl
  rw [if_neg h0, if_neg hm, if_neg hs] at hl
  rw [Framer.drain_take (frameFramer maxFrame maxEmpty) hl, hd]

end Drain

/-- Induction over a stream and the count of empty frames before it, following the
decoder: an incomplete tail, a skipped empty frame, one empty frame too many, a
declared length beyond the limit, or a whole frame. -/
theorem frame_induction (maxFrame maxEmpty : Nat) {P : Nat → Bytes → Prop}
    (short : ∀ count s, s.length < 4 → P count s)
    (skip : ∀ b0 b1 b2 b3 rest count, ofBigEndian [b0, b1, b2, b3] = 0 →
      ¬ count + 1 > maxEmpty → P (count + 1) rest → P count (b0 :: b1 :: b2 :: b3 :: rest))
    (tooManyEmpty : ∀ b0 b1 b2 b3 rest count, ofBigEndian [b0, b1, b2, b3] = 0 →
      count + 1 > maxEmpty → P count (b0 :: b1 :: b2 :: b3 :: rest))
    (tooLong : ∀ b0 b1 b2 b3 rest count, ¬ ofBigEndian [b0, b1, b2, b3] = 0 →
      ofBigEndian [b0, b1, b2, b3] > maxFrame → P count (b0 :: b1 :: b2 :: b3 :: rest))
    (incomplete : ∀ b0 b1 b2 b3 rest count, ¬ ofBigEndian [b0, b1, b2, b3] = 0 →
      ¬ ofBigEndian [b0, b1, b2, b3] > maxFrame → rest.length < ofBigEndian [b0, b1, b2, b3] →
      P count (b0 :: b1 :: b2 :: b3 :: rest))
    (frame : ∀ b0 b1 b2 b3 rest count, ¬ ofBigEndian [b0, b1, b2, b3] = 0 →
      ¬ ofBigEndian [b0, b1, b2, b3] > maxFrame → ¬ rest.length < ofBigEndian [b0, b1, b2, b3] →
      P 0 (rest.drop (ofBigEndian [b0, b1, b2, b3])) → P count (b0 :: b1 :: b2 :: b3 :: rest))
    (count : Nat) (s : Bytes) : P count s := by
  induction hn : s.length using Nat.strongRecOn generalizing count s with
  | ind len ih =>
    obtain hs | ⟨b0, b1, b2, b3, rest, rfl⟩ := headed s
    · exact short count s hs
    · simp only [List.length_cons] at hn
      by_cases h0 : ofBigEndian [b0, b1, b2, b3] = 0
      · by_cases he : count + 1 > maxEmpty
        · exact tooManyEmpty b0 b1 b2 b3 rest count h0 he
        · exact skip b0 b1 b2 b3 rest count h0 he (ih rest.length (by omega) _ rest rfl)
      · by_cases hm : ofBigEndian [b0, b1, b2, b3] > maxFrame
        · exact tooLong b0 b1 b2 b3 rest count h0 hm
        · by_cases hs : rest.length < ofBigEndian [b0, b1, b2, b3]
          · exact incomplete b0 b1 b2 b3 rest count h0 hm hs
          · exact frame b0 b1 b2 b3 rest count h0 hm hs
              (ih _ (by rw [List.length_drop]; omega) 0 _ rfl)

/-- Draining a whole stream is the reference decoder; it halts exactly where the
reference ends the connection. -/
theorem referenceDecode_eq_drain (count : Nat) (s : Bytes) :
    referenceDecode maxFrame maxEmpty count s =
      (((frameFramer maxFrame maxEmpty).drain count s).1,
        ((frameFramer maxFrame maxEmpty).drain count s).2.isNone) := by
  induction count, s using frame_induction maxFrame maxEmpty with
  | short count s hs =>
    rw [drain_short count hs]
    match s with
    | [] | [_] | [_, _] | [_, _, _] => simp [referenceDecode]
    | _ :: _ :: _ :: _ :: _ => simp only [List.length_cons] at hs; omega
  | skip b0 b1 b2 b3 rest count h0 he ih =>
    rw [referenceDecode, if_pos h0, if_neg he, drain_skip b0 b1 b2 b3 rest count h0 he, ih]
  | tooManyEmpty b0 b1 b2 b3 rest count h0 he =>
    rw [referenceDecode, if_pos h0, if_pos he, drain_tooManyEmpty b0 b1 b2 b3 rest count h0 he]
    rfl
  | tooLong b0 b1 b2 b3 rest count h0 hm =>
    rw [referenceDecode, if_neg h0, if_pos hm, drain_tooLong b0 b1 b2 b3 rest count h0 hm]
    rfl
  | incomplete b0 b1 b2 b3 rest count h0 hm hs =>
    rw [referenceDecode, if_neg h0, if_neg hm, if_pos hs,
      drain_incomplete b0 b1 b2 b3 rest count h0 hm hs]
    rfl
  | frame b0 b1 b2 b3 rest count h0 hm hs ih =>
    rw [referenceDecode, if_neg h0, if_neg hm, if_neg hs,
      drain_frame b0 b1 b2 b3 rest count h0 hm hs, ih]

/-! ### Streams without protocol violation -/

/-- The lengths a stream declares, walking from header to header. -/
def declaredLengths : Bytes → List Nat
  | b0 :: b1 :: b2 :: b3 :: rest =>
    ofBigEndian [b0, b1, b2, b3] :: declaredLengths (rest.drop (ofBigEndian [b0, b1, b2, b3]))
  | _ => []
termination_by s => s.length
decreasing_by simp only [List.length_cons, List.length_drop]; omega

/-- No declared length exceeds the limit and no more than `maxEmpty` consecutive frames
are empty. -/
def WellFramed (maxFrame maxEmpty : Nat) (stream : Bytes) : Prop :=
  (∀ L ∈ declaredLengths stream, L ≤ maxFrame) ∧
    ¬ List.replicate (maxEmpty + 1) 0 <:+: declaredLengths stream

private theorem declaredLengths_short {s : Bytes} (h : s.length < 4) : declaredLengths s = [] := by
  match s with
  | [] | [_] | [_, _] | [_, _, _] => simp [declaredLengths]
  | _ :: _ :: _ :: _ :: _ => simp only [List.length_cons] at h; omega

-- A run of zeros lies on one side of any other entry.
private theorem zeros_infix_split {n x : Nat} (hx : ¬ x = 0) (l r : List Nat) :
    List.replicate n 0 <:+: l ++ x :: r ↔
      List.replicate n 0 <:+: l ∨ List.replicate n 0 <:+: r := by
  have notMem : x ∉ List.replicate n 0 := fun h ↦ hx (List.eq_of_mem_replicate h)
  constructor
  · rintro ⟨s, t, h⟩
    obtain ⟨a, rfl, -⟩ | ⟨c, hc, hr⟩ := List.append_eq_append_iff.mp h
    · exact .inl ⟨s, a, rfl⟩
    · cases c with
      | nil => exact .inl ⟨s, [], by rw [List.append_nil, hc, List.append_nil]⟩
      | cons y c =>
        obtain ⟨rfl, rfl⟩ := List.cons.inj hr
        obtain ⟨a, -, ha⟩ | ⟨d, -, hd⟩ := List.append_eq_append_iff.mp hc
        · exact False.elim (notMem (by rw [ha]; simp))
        · cases d with
          | nil => exact False.elim (notMem (by rw [List.nil_append] at hd; simp [← hd]))
          | cons z d =>
            obtain ⟨-, rfl⟩ := List.cons.inj hd
            exact .inr ⟨d, t, rfl⟩
  · rintro (⟨s, t, rfl⟩ | ⟨s, t, rfl⟩)
    · exact ⟨s, t ++ x :: r, by simp only [List.append_assoc]⟩
    · exact ⟨l ++ x :: s, t, by simp only [List.append_assoc, List.cons_append]⟩

private theorem no_run_of_zeros {n k : Nat} (h : k < n) :
    ¬ List.replicate n 0 <:+: List.replicate k 0 := by
  intro hi
  have := hi.length_le
  simp only [List.length_replicate] at this
  omega

-- The empty frames already counted stand in front of the lengths still to come.
private theorem drain_isNone_iff (count : Nat) (s : Bytes) (hc : count ≤ maxEmpty) :
    ((frameFramer maxFrame maxEmpty).drain count s).2 = none ↔
      (∃ L ∈ declaredLengths s, L > maxFrame) ∨
        List.replicate (maxEmpty + 1) 0 <:+: List.replicate count 0 ++ declaredLengths s := by
  induction count, s using frame_induction maxFrame maxEmpty with
  | short count s hs =>
    rw [drain_short count hs, declaredLengths_short hs, List.append_nil]
    simp [no_run_of_zeros (show count < maxEmpty + 1 by omega)]
  | skip b0 b1 b2 b3 rest count h0 he ih =>
    have hz : List.replicate count 0 ++ 0 :: declaredLengths rest =
        List.replicate (count + 1) 0 ++ declaredLengths rest := by
      rw [List.replicate_succ', List.append_assoc]
      rfl
    rw [drain_skip b0 b1 b2 b3 rest count h0 he, declaredLengths, h0, List.drop_zero, hz,
      ih (by omega)]
    simp
  | tooManyEmpty b0 b1 b2 b3 rest count h0 he =>
    have hz : List.replicate count 0 ++ 0 :: declaredLengths rest =
        List.replicate (maxEmpty + 1) 0 ++ declaredLengths rest := by
      rw [show maxEmpty + 1 = count + 1 by omega, List.replicate_succ', List.append_assoc]
      rfl
    rw [drain_tooManyEmpty b0 b1 b2 b3 rest count h0 he, declaredLengths, h0, List.drop_zero, hz]
    exact iff_of_true rfl (.inr ⟨[], declaredLengths rest, rfl⟩)
  | tooLong b0 b1 b2 b3 rest count h0 hm =>
    rw [drain_tooLong b0 b1 b2 b3 rest count h0 hm, declaredLengths]
    exact iff_of_true rfl (.inl ⟨_, List.mem_cons_self, hm⟩)
  | incomplete b0 b1 b2 b3 rest count h0 hm hs =>
    rw [drain_incomplete b0 b1 b2 b3 rest count h0 hm hs, declaredLengths,
      List.drop_of_length_le (Nat.le_of_lt hs), zeros_infix_split h0,
      declaredLengths_short (by simp)]
    have hz := no_run_of_zeros (show count < maxEmpty + 1 by omega)
    have hn := no_run_of_zeros (show 0 < maxEmpty + 1 by omega)
    simp only [List.replicate_zero] at hn
    simp [hm, hz, hn]
  | frame b0 b1 b2 b3 rest count h0 hm hs ih =>
    have hz := no_run_of_zeros (show count < maxEmpty + 1 by omega)
    rw [drain_frame b0 b1 b2 b3 rest count h0 hm hs, declaredLengths, zeros_infix_split h0,
      ih (Nat.zero_le _)]
    simp [hm, hz]

/-- A stream makes the decoder halt exactly when it violates the protocol. -/
theorem drain_ne_none_iff_wellFramed (s : Bytes) :
    ((frameFramer maxFrame maxEmpty).drain 0 s).2 ≠ none ↔ WellFramed maxFrame maxEmpty s := by
  rw [ne_eq, drain_isNone_iff 0 s (Nat.zero_le _), List.replicate_zero, List.nil_append,
    WellFramed]
  simp

end EventStreamCore.Ingest
