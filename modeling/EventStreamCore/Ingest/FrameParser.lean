import EventStreamCore.Lib.BigEndian
import EventStreamCore.Events.Event

/-!
# Frame parser and client encoder

`src/core/ingest/frame_parser.cpp:14–73`, with the client encoder of
`tests/send_tcp_event.py:13–49`. The parser works on a memory block and an offset
into it, as the source works on a pointer; a read outside the block is an error of
its own, distinct from the exceptions the source throws. The list readings
`bodyReference` and `frameReference` say the same without offsets.
-/

namespace EventStreamCore.Ingest
open EventStreamCore.Lib EventStreamCore.Events

/-- What a parse can end with besides a frame: a thrown `std::runtime_error`, or a
read outside the memory block, which the source has no check against. -/
inductive ParseError where
  | runtimeError (what : String)
  | outOfBounds (index : Nat)
deriving DecidableEq, Repr

/-- Result of parsing a frame body; `frame_parser.hpp:11–15`. -/
structure ParsedFrame where
  priority : EventPriority
  topic : Bytes
  payload : Bytes
deriving DecidableEq, Repr

/-- Copy `n` bytes starting at offset `p` of the block. -/
def copyBytes (mem : Bytes) (p n : Nat) : Except ParseError Bytes :=
  if p + n ≤ mem.length then .ok ((mem.drop p).take n) else .error (.outOfBounds (p + n))

/-- `frame_parser.cpp:16–20`; `ntohl` of the four bytes in memory order. -/
def readUint32BE (mem : Bytes) (p : Nat) : Except ParseError Nat :=
  (copyBytes mem p 4).map ofBigEndian

/-- `frame_parser.cpp:22–26`; `ntohs` of the two bytes in memory order. -/
def readUint16BE (mem : Bytes) (p : Nat) : Except ParseError Nat :=
  (copyBytes mem p 2).map ofBigEndian

/-- `frame_parser.cpp:28–30`. -/
def readUint8 (mem : Bytes) (p : Nat) : Except ParseError UInt8 :=
  match mem[p]? with
  | some b => .ok b
  | none => .error (.outOfBounds p)

/-- `frame_parser.cpp:33–60`. The block `mem` is the memory behind the `data` pointer,
which may extend beyond the `len` bytes of the body. -/
def parseFrameBody (mem : Bytes) (data len : Nat) : Except ParseError ParsedFrame :=
  if len < 3 then .error (.runtimeError "Frame too small: missing priority or topic_len")
  else do
    let priorityVal ← readUint8 mem data
    match EventPriority.ofByte? priorityVal with
    | none => .error (.runtimeError "Invalid priority value")
    | some priority =>
      let topicLen ← readUint16BE mem (data + 1)
      if len < 3 + topicLen then
        .error (.runtimeError "Frame too small for declared topic length")
      else if topicLen = 0 then .error (.runtimeError "Topic length cannot be zero")
      else
        let topic ← copyBytes mem (data + 3) topicLen
        let payloadOffset := 3 + topicLen
        let payload ← if payloadOffset < len then
          copyBytes mem (data + payloadOffset) (len - payloadOffset) else .ok []
        .ok ⟨priority, topic, payload⟩

/-- `frame_parser.cpp:62–73`. -/
def parseFullFrame (fullFrame : Bytes) : Except ParseError ParsedFrame :=
  if fullFrame.length < 4 then .error (.runtimeError "Frame too small: missing length prefix")
  else do
    let frameLen ← readUint32BE fullFrame 0
    if frameLen ≠ fullFrame.length - 4 then .error (.runtimeError "Frame length mismatch")
    else parseFrameBody fullFrame 4 frameLen

/-- The client's frame layout; `tests/send_tcp_event.py:39–49`. -/
def createEventFrame (priority : UInt8) (topic payload : Bytes) : Bytes :=
  bigEndian 4 (3 + topic.length + payload.length) ++
    (priority :: (bigEndian 2 topic.length ++ topic ++ payload))

/-! ### Readings without offsets -/

/-- A frame body by its bytes alone. -/
def bodyReference : Bytes → Except ParseError ParsedFrame
  | p :: t1 :: t0 :: rest =>
    match EventPriority.ofByte? p with
    | none => .error (.runtimeError "Invalid priority value")
    | some priority =>
      if rest.length < ofBigEndian [t1, t0] then
        .error (.runtimeError "Frame too small for declared topic length")
      else if ofBigEndian [t1, t0] = 0 then .error (.runtimeError "Topic length cannot be zero")
      else .ok ⟨priority, rest.take (ofBigEndian [t1, t0]), rest.drop (ofBigEndian [t1, t0])⟩
  | _ => .error (.runtimeError "Frame too small: missing priority or topic_len")

/-- A length-prefixed frame by its bytes alone. -/
def frameReference : Bytes → Except ParseError ParsedFrame
  | b0 :: b1 :: b2 :: b3 :: body =>
    if ofBigEndian [b0, b1, b2, b3] ≠ body.length then
      .error (.runtimeError "Frame length mismatch")
    else bodyReference body
  | _ => .error (.runtimeError "Frame too small: missing length prefix")

private theorem ok_bind {α β : Type} (a : α) (k : α → Except ParseError β) :
    (Except.ok a >>= k) = k a := rfl

private theorem copyBytes_of_le {mem : Bytes} {p n : Nat} (h : p + n ≤ mem.length) :
    copyBytes mem p n = .ok ((mem.drop p).take n) := by
  simp [copyBytes, h]

private theorem readUint16BE_of_drop {mem : Bytes} {p : Nat} {bs : Bytes}
    (h : p + 2 ≤ mem.length) (hb : (mem.drop p).take 2 = bs) :
    readUint16BE mem p = .ok (ofBigEndian bs) := by
  rw [readUint16BE, copyBytes_of_le h, hb, Except.map]

private theorem readUint32BE_of_drop {mem : Bytes} {p : Nat} {bs : Bytes}
    (h : p + 4 ≤ mem.length) (hb : (mem.drop p).take 4 = bs) :
    readUint32BE mem p = .ok (ofBigEndian bs) := by
  rw [readUint32BE, copyBytes_of_le h, hb, Except.map]

private theorem readUint8_of_drop {mem rest : Bytes} {p : Nat} {b : UInt8}
    (h : mem.drop p = b :: rest) : readUint8 mem p = .ok b := by
  have hb : mem[p]? = some b := by
    rw [← List.head?_drop, h, List.head?_cons]
  simp only [readUint8, hb]

/-- Inside its block the parser sees the body's bytes and nothing else. -/
theorem parseFrameBody_eq_reference (mem : Bytes) (data len : Nat)
    (h : data + len ≤ mem.length) :
    parseFrameBody mem data len = bodyReference ((mem.drop data).take len) := by
  have hl : ((mem.drop data).take len).length = len := by
    rw [List.length_take, List.length_drop]
    omega
  unfold parseFrameBody
  split
  · next hs =>
    unfold bodyReference
    split
    · next he =>
      rw [he] at hl
      simp only [List.length_cons] at hl
      omega
    · rfl
  · next hs =>
    match hd : mem.drop data with
    | [] | [_] | [_, _] =>
      have := congrArg List.length hd
      simp only [List.length_drop, List.length_cons, List.length_nil] at this
      omega
    | p :: t1 :: t0 :: rest =>
      have h3 : mem.drop (data + 3) = rest := by rw [← List.drop_drop, hd]; rfl
      have h1 : (mem.drop (data + 1)).take 2 = [t1, t0] := by rw [← List.drop_drop, hd]; rfl
      have hr : data + 3 + rest.length = mem.length := by
        have := congrArg List.length hd
        simp only [List.length_drop, List.length_cons] at this
        omega
      obtain ⟨k, rfl⟩ : ∃ k, len = k + 3 := ⟨len - 3, by omega⟩
      have hk : (rest.take k).length = k := by rw [List.length_take]; omega
      rw [readUint8_of_drop hd, readUint16BE_of_drop (by omega) h1, ok_bind, List.take_succ_cons,
        List.take_succ_cons, List.take_succ_cons, bodyReference]
      generalize ofBigEndian [t1, t0] = L
      cases EventPriority.ofByte? p with
      | none => rfl
      | some priority =>
        simp only [hk, ok_bind]
        by_cases hshort : k < L
        · rw [if_pos (show k + 3 < 3 + L by omega), if_pos hshort]
        · rw [if_neg (show ¬ k + 3 < 3 + L by omega), if_neg hshort]
          by_cases hz : L = 0
          · rw [if_pos hz, if_pos hz]
          · rw [if_neg hz, if_neg hz, copyBytes_of_le (by omega), h3, ok_bind,
              List.take_take, Nat.min_eq_left (Nat.le_of_not_lt hshort)]
            by_cases hp : 3 + L < k + 3
            · rw [if_pos hp, copyBytes_of_le (by omega), ← Nat.add_assoc, ← List.drop_drop, h3,
                List.drop_take, show k + 3 - (3 + L) = k - L by omega, ok_bind]
            · have hkL : L = k := by omega
              rw [if_neg hp, hkL, List.drop_of_length_le (Nat.le_of_eq hk)]

/-- On a frame the parser sees exactly its bytes. -/
theorem parseFullFrame_eq_reference (f : Bytes) : parseFullFrame f = frameReference f := by
  match f with
  | [] | [_] | [_, _] | [_, _, _] => simp [parseFullFrame, frameReference]
  | b0 :: b1 :: b2 :: b3 :: body =>
    have hl : (b0 :: b1 :: b2 :: b3 :: body).length = body.length + 4 := rfl
    have ht : ((b0 :: b1 :: b2 :: b3 :: body).drop 0).take 4 = [b0, b1, b2, b3] := rfl
    have hd : (b0 :: b1 :: b2 :: b3 :: body).drop 4 = body := rfl
    rw [parseFullFrame, if_neg (by omega), readUint32BE_of_drop (by omega) ht, hl,
      Nat.add_sub_cancel, frameReference, ok_bind]
    by_cases hb : ofBigEndian [b0, b1, b2, b3] = body.length
    · rw [if_neg (not_not_intro hb), if_neg (not_not_intro hb), hb,
        parseFrameBody_eq_reference _ _ _ (by omega), hd, List.take_length]
    · rw [if_pos hb, if_pos hb]

/-- The reading without offsets never leaves its bytes. -/
theorem bodyReference_no_outOfBounds (b : Bytes) (i : Nat) :
    bodyReference b ≠ .error (.outOfBounds i) := by
  unfold bodyReference
  split
  · split
    · simp
    · split
      · simp
      · split <;> simp
  · simp

/-- No input makes the parser read outside the frame. -/
theorem parseFullFrame_no_outOfBounds (f : Bytes) (i : Nat) :
    parseFullFrame f ≠ .error (.outOfBounds i) := by
  rw [parseFullFrame_eq_reference]
  unfold frameReference
  split
  · split
    · simp
    · exact bodyReference_no_outOfBounds _ i
  · simp

/-! ### The accepted language -/

/-- The client encodes a priority of at most `CRITICAL` and a topic of 1 to 65535 bytes. -/
def Encodable (priority : UInt8) (topic : Bytes) : Prop :=
  priority.toNat ≤ 4 ∧ 1 ≤ topic.length ∧ topic.length ≤ 65535

/-- Length of an encoded frame. -/
theorem length_createEventFrame (priority : UInt8) (topic payload : Bytes) :
    (createEventFrame priority topic payload).length =
      4 + (3 + topic.length + payload.length) := by
  simp only [createEventFrame, List.length_append, List.length_cons, length_bigEndian]
  omega

private theorem bodyReference_encoded (priority : UInt8) (topic payload : Bytes)
    (h : Encodable priority topic) (p : EventPriority)
    (hp : EventPriority.ofByte? priority = some p) :
    bodyReference (priority :: (bigEndian 2 topic.length ++ topic ++ payload)) =
      .ok ⟨p, topic, payload⟩ := by
  obtain ⟨-, hpos, hmax⟩ := h
  have hv := ofBigEndian_bigEndian 2 topic.length
  have hl := length_bigEndian 2 topic.length
  rw [Nat.mod_eq_of_lt (by omega)] at hv
  match hb : bigEndian 2 topic.length with
  | [] | [_] | _ :: _ :: _ :: _ => simp [hb] at hl
  | [t1, t0] =>
    rw [hb] at hv
    rw [List.cons_append, List.cons_append, List.cons_append, List.cons_append, List.nil_append,
      bodyReference, hp, hv]
    simp only [List.length_append, List.take_left, List.drop_left]
    rw [if_neg (by omega), if_neg (by omega)]

private theorem bodyReference_ok {body : Bytes} {r : ParsedFrame}
    (h : bodyReference body = .ok r) :
    ∃ p, EventPriority.ofByte? p = some r.priority ∧ Encodable p r.topic ∧
      body = p :: (bigEndian 2 r.topic.length ++ r.topic ++ r.payload) := by
  unfold bodyReference at h
  split at h
  · next p t1 t0 rest =>
    cases hp : EventPriority.ofByte? p with
    | none => simp [hp] at h
    | some priority =>
      rw [hp] at h
      simp only at h
      split at h
      · cases h
      · next hshort =>
        split at h
        · cases h
        · next hz =>
          cases h
          have hlt := ofBigEndian_lt [t1, t0]
          rw [show [t1, t0].length = 2 from rfl] at hlt
          have hl : (rest.take (ofBigEndian [t1, t0])).length = ofBigEndian [t1, t0] := by
            rw [List.length_take]
            omega
          have hle := (EventPriority.ofByte?_isSome_iff p).mp (by rw [hp]; rfl)
          have hb := bigEndian_ofBigEndian [t1, t0]
          rw [show [t1, t0].length = 2 from rfl] at hb
          refine ⟨p, hp, ⟨hle, ?_, ?_⟩, ?_⟩
          · simp only [hl]; omega
          · simp only [hl]; omega
          · simp only [hl, hb, List.append_assoc, List.take_append_drop]
            rfl
  · cases h

private theorem frameReference_encoded (priority : UInt8) (topic payload : Bytes)
    (h : Encodable priority topic) (hlen : 3 + topic.length + payload.length < 2 ^ 32)
    (p : EventPriority) (hp : EventPriority.ofByte? priority = some p) :
    frameReference (createEventFrame priority topic payload) = .ok ⟨p, topic, payload⟩ := by
  have hv := ofBigEndian_bigEndian 4 (3 + topic.length + payload.length)
  have hl := length_bigEndian 4 (3 + topic.length + payload.length)
  rw [Nat.mod_eq_of_lt (by omega)] at hv
  unfold createEventFrame
  match hb : bigEndian 4 (3 + topic.length + payload.length) with
  | [] | [_] | [_, _] | [_, _, _] | _ :: _ :: _ :: _ :: _ :: _ => simp [hb] at hl
  | [b0, b1, b2, b3] =>
    rw [hb] at hv
    rw [List.cons_append, List.cons_append, List.cons_append, List.cons_append, List.nil_append,
      frameReference, hv, if_neg, bodyReference_encoded priority topic payload h p hp]
    simp only [List.length_cons, List.length_append, length_bigEndian, ne_eq, Decidable.not_not]
    omega

private theorem frameReference_ok {f : Bytes} {r : ParsedFrame} (h : frameReference f = .ok r) :
    ∃ p, EventPriority.ofByte? p = some r.priority ∧ Encodable p r.topic ∧
      f = createEventFrame p r.topic r.payload := by
  unfold frameReference at h
  split at h
  · next b0 b1 b2 b3 body =>
    split at h
    · cases h
    · next hlen =>
      obtain ⟨p, hp, he, hbody⟩ := bodyReference_ok h
      refine ⟨p, hp, he, ?_⟩
      have hn : body.length = 3 + r.topic.length + r.payload.length := by
        rw [hbody]
        simp only [List.length_cons, List.length_append, length_bigEndian]
        omega
      have hb := bigEndian_ofBigEndian [b0, b1, b2, b3]
      rw [show [b0, b1, b2, b3].length = 4 from rfl, Decidable.not_not.mp hlen, hn] at hb
      rw [createEventFrame, hb, ← hbody]
      rfl
  · cases h

/-- A frame shorter than `2^32 + 4` bytes parses exactly to what it encodes. -/
theorem parseFullFrame_ok_iff (f : Bytes) (hf : f.length < 2 ^ 32 + 4) (r : ParsedFrame) :
    parseFullFrame f = .ok r ↔
      ∃ p, EventPriority.ofByte? p = some r.priority ∧ Encodable p r.topic ∧
        f = createEventFrame p r.topic r.payload := by
  rw [parseFullFrame_eq_reference]
  constructor
  · exact frameReference_ok
  · rintro ⟨p, hp, he, rfl⟩
    rw [length_createEventFrame] at hf
    exact frameReference_encoded p r.topic r.payload he (by omega) r.priority hp

/-- Every outcome other than a frame is a thrown exception. -/
theorem parseFullFrame_error {f : Bytes} (h : ∀ r, parseFullFrame f ≠ .ok r) :
    ∃ what, parseFullFrame f = .error (.runtimeError what) := by
  cases hp : parseFullFrame f with
  | ok r => exact False.elim (h r hp)
  | error e =>
    cases e with
    | runtimeError what => exact ⟨what, rfl⟩
    | outOfBounds i => exact False.elim (parseFullFrame_no_outOfBounds f i hp)

private theorem encodable_priority {p : UInt8} {topic : Bytes} (h : Encodable p topic) :
    ∃ e, EventPriority.ofByte? p = some e :=
  Option.isSome_iff_exists.mp ((EventPriority.ofByte?_isSome_iff p).mpr h.1)

/-- The accepted language is exactly the image of the client encoder: a frame of fewer
than `2^32 + 4` bytes is accepted if and only if it encodes some priority up to
`CRITICAL`, topic of 1 to 65535 bytes and payload; these are unique and are what the
parser returns. Every other frame makes it throw, and none makes it read outside. -/
theorem parseFullFrame_grammar (f : Bytes) (hf : f.length < 2 ^ 32 + 4) :
    ((∃ r, parseFullFrame f = .ok r) ↔
      ∃ p topic payload, Encodable p topic ∧ f = createEventFrame p topic payload) ∧
    (∀ p topic payload, Encodable p topic → f = createEventFrame p topic payload →
      (∃ e, EventPriority.ofByte? p = some e ∧ parseFullFrame f = .ok ⟨e, topic, payload⟩) ∧
      ∀ p' topic' payload', Encodable p' topic' → f = createEventFrame p' topic' payload' →
        p' = p ∧ topic' = topic ∧ payload' = payload) ∧
    ((¬ ∃ p topic payload, Encodable p topic ∧ f = createEventFrame p topic payload) →
      ∃ what, parseFullFrame f = .error (.runtimeError what)) ∧
    ∀ i, parseFullFrame f ≠ .error (.outOfBounds i) := by
  have parses (p : UInt8) (topic payload : Bytes) (he : Encodable p topic)
      (hf' : f = createEventFrame p topic payload) :
      ∃ e, EventPriority.ofByte? p = some e ∧ parseFullFrame f = .ok ⟨e, topic, payload⟩ := by
    obtain ⟨e, hp⟩ := encodable_priority he
    exact ⟨e, hp, (parseFullFrame_ok_iff f hf _).mpr ⟨p, hp, he, hf'⟩⟩
  have accepted : (∃ r, parseFullFrame f = .ok r) ↔
      ∃ p topic payload, Encodable p topic ∧ f = createEventFrame p topic payload := by
    constructor
    · rintro ⟨r, hr⟩
      obtain ⟨p, -, he, hf'⟩ := (parseFullFrame_ok_iff f hf r).mp hr
      exact ⟨p, r.topic, r.payload, he, hf'⟩
    · rintro ⟨p, topic, payload, he, hf'⟩
      obtain ⟨e, -, hr⟩ := parses p topic payload he hf'
      exact ⟨_, hr⟩
  refine ⟨accepted, ?_, ?_, parseFullFrame_no_outOfBounds f⟩
  · intro p topic payload he hf'
    refine ⟨parses p topic payload he hf', ?_⟩
    intro p' topic' payload' he' hf''
    -- both encodings are what the one parse returns
    obtain ⟨e, hp, hr⟩ := parses p topic payload he hf'
    obtain ⟨e', hp', hr'⟩ := parses p' topic' payload' he' hf''
    rw [hr] at hr'
    obtain ⟨rfl, rfl, rfl⟩ := ParsedFrame.mk.inj (Except.ok.inj hr')
    rw [EventPriority.ofByte?_eq_some_iff] at hp hp'
    exact ⟨UInt8.toNat_inj.mp (hp'.trans hp.symm), rfl, rfl⟩
  · intro hn
    exact parseFullFrame_error fun r hr ↦ hn (accepted.mp ⟨r, hr⟩)

/-- The grammar applies to a client frame with a one-byte topic and an empty payload. -/
theorem parseFullFrame_grammar_minimal :
    ∃ e, EventPriority.ofByte? 4 = some e ∧
      parseFullFrame (createEventFrame 4 [116] []) = .ok ⟨e, [116], []⟩ :=
  ((parseFullFrame_grammar (createEventFrame 4 [116] [])
    (by rw [length_createEventFrame]; decide)).2.1 4 [116] []
    ⟨by decide, by decide, by decide⟩ rfl).1

end EventStreamCore.Ingest
