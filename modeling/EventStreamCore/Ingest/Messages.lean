import EventStreamCore.Lib.Transmission
import EventStreamCore.Ingest.Epoll

/-!
# What a client sends

Clients send one encoded frame after another, `tests/send_tcp_event.py:13–49` and `70–76`, and
both servers cut the stream they receive into frames and parse each of them,
`src/core/ingest/tcp.cpp:191–234`, `src/core/ingest/epoll.cpp:386–438`. The frames of the client
are a `Code` for this decoder.
-/

namespace EventStreamCore.Ingest
open EventStreamCore.Lib EventStreamCore.Events

namespace ParsedFrame

/-- The client's encoding of a frame. -/
def encode (frame : ParsedFrame) : Bytes :=
  createEventFrame (UInt8.ofNat frame.priority.toNat) frame.topic frame.payload

/-- The servers take this frame: its topic is not empty and fits its length field, and the frame
is within the limit. -/
def Sendable (maxFrame : Nat) (frame : ParsedFrame) : Prop :=
  1 ≤ frame.topic.length ∧ frame.topic.length ≤ 65535 ∧
    3 + frame.topic.length + frame.payload.length ≤ maxFrame

instance (maxFrame : Nat) (frame : ParsedFrame) : Decidable (frame.Sendable maxFrame) :=
  inferInstanceAs (Decidable (_ ∧ _ ∧ _))

variable {maxFrame maxEmpty : Nat} {frame : ParsedFrame}

/-- The length an encoded frame declares is the length of its body. -/
theorem exists_header (h : frame.Sendable maxFrame) (hmax : maxFrame < 2 ^ 32) :
    ∃ b0 b1 b2 b3 body, frame.encode = b0 :: b1 :: b2 :: b3 :: body ∧
      ofBigEndian [b0, b1, b2, b3] = body.length ∧
      body.length = 3 + frame.topic.length + frame.payload.length := by
  obtain ⟨-, -, hlimit⟩ := h
  have hvalue := ofBigEndian_bigEndian 4 (3 + frame.topic.length + frame.payload.length)
  have hlength := length_bigEndian 4 (3 + frame.topic.length + frame.payload.length)
  rw [Nat.mod_eq_of_lt (by omega)] at hvalue
  have hbody : (UInt8.ofNat frame.priority.toNat ::
      (bigEndian 2 frame.topic.length ++ frame.topic ++ frame.payload)).length =
        3 + frame.topic.length + frame.payload.length := by
    simp only [List.length_cons, List.length_append, length_bigEndian]
    omega
  rw [encode, createEventFrame]
  obtain hshort | ⟨b0, b1, b2, b3, rest, hb⟩ :=
    headed (bigEndian 4 (3 + frame.topic.length + frame.payload.length))
  · omega
  · rw [hb] at hvalue hlength ⊢
    have hempty : rest = [] := by
      apply List.eq_nil_of_length_eq_zero
      simp only [List.length_cons] at hlength
      omega
    subst hempty
    exact ⟨b0, b1, b2, b3, _, rfl, hvalue.trans hbody.symm, hbody⟩

theorem length_encode (frame : ParsedFrame) :
    frame.encode.length = 4 + (3 + frame.topic.length + frame.payload.length) :=
  length_createEventFrame _ _ _

/-- An encoded frame parses to itself. -/
theorem parseFullFrame_encode (h : frame.Sendable maxFrame) (hmax : maxFrame < 2 ^ 32) :
    parseFullFrame frame.encode = .ok frame := by
  obtain ⟨hpos, htopic, hlimit⟩ := h
  have hlength := frame.length_encode
  rw [parseFullFrame_ok_iff frame.encode (by omega)]
  have hpriority : EventPriority.ofByte? (UInt8.ofNat frame.priority.toNat) =
      some frame.priority := by
    cases frame.priority <;> rfl
  refine ⟨_, hpriority, ⟨?_, hpos, htopic⟩, rfl⟩
  cases frame.priority <;> decide

/-- The client's encoding for the servers' decoder. -/
def code (maxFrame maxEmpty : Nat) (hmax : maxFrame < 2 ^ 32) :
    Code (frameFramer maxFrame maxEmpty) where
  Valid := Sendable maxFrame
  encode := encode
  look_nil s := ⟨s, rfl⟩
  look_encode := by
    intro frame h s xs
    obtain ⟨b0, b1, b2, b3, body, hencode, hdeclared, hbody⟩ := exists_header h hmax
    have hparse := parseFullFrame_encode h hmax
    refine ⟨0, ?_⟩
    change frameLook maxFrame maxEmpty s (frame.encode ++ xs) = _
    rw [hencode] at hparse ⊢
    rw [List.cons_append, List.cons_append, List.cons_append, List.cons_append, frameLook_cons,
      hdeclared, if_neg (by omega), if_neg (by have := h.2.2; omega), if_neg (by simp),
      List.take_left, dispatchFrame, hparse]
    simp only [List.length_cons]
    congr 1
    omega
  look_partial := by
    intro frame xs h hcut hlt s
    obtain ⟨b0, b1, b2, b3, body, hencode, hdeclared, hbody⟩ := exists_header h hmax
    change ∃ t, frameLook maxFrame maxEmpty s xs = _
    obtain hshort | ⟨c0, c1, c2, c3, rest, rfl⟩ := headed xs
    · exact ⟨s, frameLook_short hshort s⟩
    · -- the header has arrived, and with it the length that is still missing
      rw [hencode, List.length_cons, List.length_cons, List.length_cons, List.length_cons] at hlt
      rw [hencode] at hcut
      simp only [List.cons_prefix_cons] at hcut
      obtain ⟨rfl, rfl, rfl, rfl, -⟩ := hcut
      simp only [List.length_cons] at hlt
      refine ⟨0, ?_⟩
      have hlimit := h.2.2
      rw [frameLook_cons, hdeclared, if_neg (by omega), if_neg (by omega), if_pos (by omega)]

end ParsedFrame

end EventStreamCore.Ingest
