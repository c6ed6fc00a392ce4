import EventStreamCore.Ingest.Tcp

/-!
# UDP ingest

`UdpIngestServer::receiveLoop`, `src/core/ingest/udp.cpp:104–193`, one turn for each result of
`recvfrom`. The buffer of the constructor, `:18–22`, is reused for every datagram. The declared
length is compared after a sum of 32 bits, so a length next to the end of that range passes.
-/

namespace EventStreamCore.Ingest
open EventStreamCore.Lib EventStreamCore.Events

/-- `MAX_UDP_DATAGRAM`. -/
def maxUdpDatagram : Nat := 65507

/-- `recvBuffer`, never longer than a datagram can be. -/
structure RecvBuffer where
  bytes : Bytes
  size_le : bytes.length ≤ maxUdpDatagram

namespace RecvBuffer

/-- The buffer of the constructor. -/
def resize (bufferSize : Nat) : RecvBuffer :=
  ⟨List.replicate (min bufferSize maxUdpDatagram) 0, by
    rw [List.length_replicate]
    exact Nat.min_le_right _ _⟩

/-- `recvfrom` stores the beginning of a datagram over the first bytes of the buffer. -/
def recvfrom (b : RecvBuffer) (datagram : Bytes) : RecvBuffer :=
  ⟨datagram.take b.bytes.length ++ b.bytes.drop datagram.length, by
    have h := b.size_le
    rw [List.length_append, List.length_take, List.length_drop]
    omega⟩

/-- A datagram that fits is stored as it is. -/
theorem bytes_recvfrom {b : RecvBuffer} {datagram : Bytes} (h : datagram.length ≤ b.bytes.length) :
    (b.recvfrom datagram).bytes = datagram ++ b.bytes.drop datagram.length := by
  change datagram.take b.bytes.length ++ _ = _
  rw [List.take_of_length_le h]

/-- The buffer keeps its size. -/
theorem length_recvfrom (b : RecvBuffer) (datagram : Bytes) :
    (b.recvfrom datagram).bytes.length = b.bytes.length := by
  change (datagram.take b.bytes.length ++ b.bytes.drop datagram.length).length = _
  rw [List.length_append, List.length_take, List.length_drop]
  omega

end RecvBuffer

/-- What becomes of a datagram. -/
inductive DatagramOutcome where
  | tooSmall
  | invalidLength (frameLen : UInt32)
  | parsed (frameLen : UInt32) (result : Except ParseError ParsedFrame)

/-- The checks on a datagram and its parse, `udp.cpp:134–162`; `recvBuffer` is the memory behind
the pointer. -/
def examineDatagram (recvBuffer : Bytes) (bytesReceived : Nat) : DatagramOutcome :=
  -- 4 (length) + 1 (priority) + 2 (topic_len) + 1 (min topic)
  if bytesReceived < 8 then .tooSmall
  else
    let frameLen := UInt32.ofNat (headerAt recvBuffer 0)
    if frameLen = 0 ∨ (4 + frameLen).toNat > bytesReceived then .invalidLength frameLen
    else .parsed frameLen (parseFrameBody recvBuffer 4 frameLen.toNat)

/-- What a datagram makes `receiveLoop` create an event from. -/
def DatagramOutcome.frame? : DatagramOutcome → Option ParsedFrame
  | .parsed _ (.ok frame) => some frame
  | _ => none

/-- The state of a server: its buffer and its statistics. -/
structure UdpIngestServer where
  recvBuffer : RecvBuffer
  totalDatagramsReceived : UInt64
  totalEventsProcessed : UInt64
  totalParseErrors : UInt64
  totalBackpressureDrops : UInt64

namespace UdpIngestServer

/-- The statistics of a datagram and the frame it creates an event from, `udp.cpp:134–190`. The
dispatcher's answer is an argument; a read outside the buffer is no exception to be caught. -/
def recordOutcome (s : UdpIngestServer) (tryPush : Bool) :
    DatagramOutcome → Except ParseError (UdpIngestServer × Option ParsedFrame)
  | .tooSmall | .invalidLength _ | .parsed _ (.error (.runtimeError _)) =>
    .ok ({ s with totalParseErrors := s.totalParseErrors + 1 }, none)
  | .parsed _ (.error (.outOfBounds index)) => .error (.outOfBounds index)
  | .parsed _ (.ok frame) =>
    if tryPush then
      .ok ({ s with totalEventsProcessed := s.totalEventsProcessed + 1 }, some frame)
    else .ok ({ s with totalBackpressureDrops := s.totalBackpressureDrops + 1 }, some frame)

/-- One turn of `receiveLoop`. -/
def receiveTurn (s : UdpIngestServer) (recv : Recv) (tryPush : Bool) :
    Except ParseError (UdpIngestServer × Option ParsedFrame) :=
  match recv with
  | .error _ => .ok (s, none)
  | .ok datagram =>
    let bytesReceived := min datagram.length s.recvBuffer.bytes.length
    if bytesReceived = 0 then .ok (s, none)
    else
      let s := { s with
        recvBuffer := s.recvBuffer.recvfrom datagram
        totalDatagramsReceived := s.totalDatagramsReceived + 1 }
      s.recordOutcome tryPush (examineDatagram s.recvBuffer.bytes bytesReceived)

/-- `receiveLoop` on the results of its successive `recvfrom` calls, each with the answer the
dispatcher gives to a push in that turn. -/
def receiveLoop (s : UdpIngestServer) :
    List (Recv × Bool) → Except ParseError (UdpIngestServer × List ParsedFrame)
  | [] => .ok (s, [])
  | (recv, tryPush) :: turns => do
    let (s, frame) ← s.receiveTurn recv tryPush
    let (s, frames) ← s.receiveLoop turns
    .ok (s, frame.toList ++ frames)

end UdpIngestServer

/-! ### One datagram -/

/-- The length a datagram declares. -/
def declaredLength (datagram : Bytes) : Nat := headerAt datagram 0

theorem declaredLength_cons (b0 b1 b2 b3 : UInt8) (rest : Bytes) :
    declaredLength (b0 :: b1 :: b2 :: b3 :: rest) = ofBigEndian [b0, b1, b2, b3] :=
  headerAt_cons b0 b1 b2 b3 rest

private theorem four_bytes {d : Bytes} (h : 4 ≤ d.length) :
    ∃ b0 b1 b2 b3 body, d = b0 :: b1 :: b2 :: b3 :: body :=
  match d with
  | [] | [_] | [_, _] | [_, _, _] => absurd h (by simp)
  | b0 :: b1 :: b2 :: b3 :: body => ⟨b0, b1, b2, b3, body, rfl⟩

/-- The header is read from the datagram. -/
theorem headerAt_append {d : Bytes} (h : 4 ≤ d.length) (rest : Bytes) :
    headerAt (d ++ rest) 0 = declaredLength d := by
  obtain ⟨b0, b1, b2, b3, body, rfl⟩ := four_bytes h
  rw [declaredLength_cons]
  exact headerAt_cons b0 b1 b2 b3 (body ++ rest)

theorem declaredLength_lt {d : Bytes} (h : 4 ≤ d.length) : declaredLength d < 2 ^ 32 := by
  obtain ⟨b0, b1, b2, b3, body, rfl⟩ := four_bytes h
  have hlt := ofBigEndian_lt [b0, b1, b2, b3]
  rw [show [b0, b1, b2, b3].length = 4 from rfl] at hlt
  rw [declaredLength_cons]
  omega

variable {recvBuffer : RecvBuffer} {d : Bytes}

/-- A declared length survives the conversion to 32 bits. -/
private theorem toNat_declaredLength (h : 4 ≤ d.length) :
    (UInt32.ofNat (declaredLength d)).toNat = declaredLength d := by
  rw [UInt32.toNat_ofNat', Nat.mod_eq_of_lt (declaredLength_lt h)]

/-- The checks on a datagram that fits the buffer, by its declared length. -/
theorem examineDatagram_recvfrom (hfit : d.length ≤ recvBuffer.bytes.length) (h8 : 8 ≤ d.length) :
    examineDatagram (recvBuffer.recvfrom d).bytes d.length =
      if declaredLength d = 0 ∨ (4 + declaredLength d) % 2 ^ 32 > d.length then
        .invalidLength (.ofNat (declaredLength d))
      else .parsed (.ofNat (declaredLength d))
        (parseFrameBody (d ++ recvBuffer.bytes.drop d.length) 4 (declaredLength d)) := by
  have hval := toNat_declaredLength (d := d) (by omega)
  have hzero : UInt32.ofNat (declaredLength d) = 0 ↔ declaredLength d = 0 := by
    rw [← UInt32.toNat_inj, hval]
    rfl
  have hsum : (4 + UInt32.ofNat (declaredLength d)).toNat = (4 + declaredLength d) % 2 ^ 32 := by
    rw [UInt32.toNat_add, hval]
    rfl
  simp only [examineDatagram, RecvBuffer.bytes_recvfrom hfit,
    headerAt_append (show 4 ≤ d.length by omega), hzero, hsum, hval]
  rw [if_neg (by omega)]

/-- The parser's read of a declared length that lies in the datagram. -/
private theorem parseFrameBody_append (h : 4 + declaredLength d ≤ d.length) (rest : Bytes) :
    parseFrameBody (d ++ rest) 4 (declaredLength d) =
      bodyReference ((d.drop 4).take (declaredLength d)) := by
  rw [parseFrameBody_eq_reference _ _ _ (by rw [List.length_append]; omega),
    List.drop_append_of_le_length (by omega),
    List.take_append_of_le_length (by rw [List.length_drop]; omega)]

/-- While the sum stays within 32 bits, the outcome is a reading of the datagram's bytes. -/
theorem examineDatagram_eq_reference (hfit : d.length ≤ recvBuffer.bytes.length)
    (h8 : 8 ≤ d.length) (h : declaredLength d < 2 ^ 32 - 4) :
    examineDatagram (recvBuffer.recvfrom d).bytes d.length =
      if declaredLength d = 0 ∨ 4 + declaredLength d > d.length then
        .invalidLength (.ofNat (declaredLength d))
      else .parsed (.ofNat (declaredLength d))
        (bodyReference ((d.drop 4).take (declaredLength d))) := by
  rw [examineDatagram_recvfrom hfit h8, Nat.mod_eq_of_lt (by omega)]
  split
  · rfl
  · rw [parseFrameBody_append (by omega)]

/-- When the sum wraps around, it passes, and the parser is given the whole declared length. -/
theorem examineDatagram_of_wrap (hfit : d.length ≤ recvBuffer.bytes.length) (h8 : 8 ≤ d.length)
    (h : 2 ^ 32 - 4 ≤ declaredLength d) :
    examineDatagram (recvBuffer.recvfrom d).bytes d.length =
      .parsed (.ofNat (declaredLength d))
        (parseFrameBody (d ++ recvBuffer.bytes.drop d.length) 4 (declaredLength d)) := by
  have hlt := declaredLength_lt (d := d) (by omega)
  rw [examineDatagram_recvfrom hfit h8, if_neg (by omega)]

/-- When a datagram in the buffer reaches the parser, its declared length lies in it, the parser
reads nothing outside it, and the outcome is that in every other buffer. -/
structure LengthCheckSound (recvBuffer : RecvBuffer) (d : Bytes) : Prop where
  frameLen_le : ∀ frameLen result,
    examineDatagram (recvBuffer.recvfrom d).bytes d.length = .parsed frameLen result →
    frameLen.toNat ≤ d.length - 4
  reads_inside : ∀ frameLen result,
    examineDatagram (recvBuffer.recvfrom d).bytes d.length = .parsed frameLen result →
    parseFrameBody d 4 frameLen.toNat = result ∧ ∀ index, result ≠ .error (.outOfBounds index)
  datagram_alone : ∀ other : RecvBuffer, d.length ≤ other.bytes.length →
    examineDatagram (other.recvfrom d).bytes d.length =
      examineDatagram (recvBuffer.recvfrom d).bytes d.length

private theorem lengthCheckSound_of_small (h8 : d.length < 8) : LengthCheckSound recvBuffer d := by
  have hsmall : ∀ mem, examineDatagram mem d.length = .tooSmall := fun mem ↦ if_pos h8
  refine ⟨?_, ?_, ?_⟩
  · intro frameLen result h
    rw [hsmall] at h
    cases h
  · intro frameLen result h
    rw [hsmall] at h
    cases h
  · intro other _
    rw [hsmall, hsmall]

private theorem lengthCheckSound_of_lt (hfit : d.length ≤ recvBuffer.bytes.length)
    (h8 : 8 ≤ d.length) (h : declaredLength d < 2 ^ 32 - 4) : LengthCheckSound recvBuffer d := by
  have hex := examineDatagram_eq_reference hfit h8 h
  refine ⟨?_, ?_, ?_⟩
  · intro frameLen result hp
    rw [hex] at hp
    split at hp
    · cases hp
    · cases hp
      rw [toNat_declaredLength (by omega)]
      omega
  · intro frameLen result hp
    rw [hex] at hp
    split at hp
    · cases hp
    · cases hp
      have hbody := parseFrameBody_append (d := d) (by omega) []
      rw [List.append_nil] at hbody
      rw [toNat_declaredLength (by omega)]
      exact ⟨hbody, bodyReference_no_outOfBounds _⟩
  · intro other hother
    rw [hex, examineDatagram_eq_reference hother h8 h]

/-- The length check is sound exactly for datagrams that are too small to be looked at and for
those whose declared length plus four stays within 32 bits. -/
theorem lengthCheckSound_iff (hfit : d.length ≤ recvBuffer.bytes.length) :
    LengthCheckSound recvBuffer d ↔ d.length < 8 ∨ declaredLength d < 2 ^ 32 - 4 := by
  constructor
  · intro h
    by_cases h8 : d.length < 8
    · exact .inl h8
    · by_cases hlen : declaredLength d < 2 ^ 32 - 4
      · exact .inr hlen
      · -- the parser is given more bytes than any datagram has
        have hwrap := examineDatagram_of_wrap hfit (by omega) (by omega)
        have hle := h.frameLen_le _ _ hwrap
        have hmax : d.length ≤ maxUdpDatagram := Nat.le_trans hfit recvBuffer.size_le
        rw [toNat_declaredLength (by omega)] at hle
        rw [maxUdpDatagram] at hmax
        omega
  · intro h
    by_cases h8 : d.length < 8
    · exact lengthCheckSound_of_small h8
    · exact lengthCheckSound_of_lt hfit (by omega) (h.resolve_left h8)

/-- A client frame in the buffer of the constructor. -/
theorem lengthCheckSound_minimal :
    LengthCheckSound (.resize 65536) [0, 0, 0, 4, 1, 0, 1, 0x61] :=
  (lengthCheckSound_iff (by rw [RecvBuffer.resize, List.length_replicate]; decide)).mpr
    (.inr (by decide))

/-- A declared length of `2^32 - 4` reaches the parser with a datagram of eight bytes. -/
theorem not_lengthCheckSound_wrap :
    ¬ LengthCheckSound (.resize 65536) [0xFF, 0xFF, 0xFF, 0xFC, 1, 0, 1, 0x61] := by
  intro h
  have hwrap := @examineDatagram_of_wrap (.resize 65536)
    [0xFF, 0xFF, 0xFF, 0xFC, 1, 0, 1, 0x61]
    (by rw [RecvBuffer.resize, List.length_replicate]; decide) (by decide) (by decide)
  exact absurd (h.frameLen_le _ _ hwrap) (by decide)

/-! ### Both servers on one frame -/

private theorem bodyReference_short {body : Bytes} (h : body.length < 4) (r : ParsedFrame) :
    bodyReference body ≠ .ok r := by
  match body with
  | [] | [_] | [_, _] => exact fun hr ↦ nomatch hr
  | [p, t1, t0] =>
    intro hr
    rw [bodyReference] at hr
    cases hp : EventPriority.ofByte? p with
    | none =>
      rw [hp] at hr
      cases hr
    | some priority =>
      -- no topic fits, and the empty one is refused
      rw [hp] at hr
      simp only at hr
      split at hr
      · cases hr
      · next hshort =>
        rw [List.length_nil] at hshort
        rw [if_pos (by omega)] at hr
        cases hr
  | _ :: _ :: _ :: _ :: _ =>
    simp only [List.length_cons] at h
    omega

/-- The length bytes and the body of a frame whose length is declared right. -/
private theorem exists_body_of_declared (h4 : 4 ≤ d.length)
    (hdecl : declaredLength d = d.length - 4) : ∃ b0 b1 b2 b3 body,
      d = b0 :: b1 :: b2 :: b3 :: body ∧ ofBigEndian [b0, b1, b2, b3] = body.length := by
  obtain ⟨b0, b1, b2, b3, body, rfl⟩ := four_bytes h4
  refine ⟨b0, b1, b2, b3, body, rfl, ?_⟩
  rw [← declaredLength_cons b0 b1 b2 b3 body, hdecl]
  rfl

/-- On a frame whose length is declared right, both servers do what the parser says, unless the
frame is too short for any. -/
private theorem parseFullFrame_of_declared (h4 : 4 ≤ d.length)
    (hdecl : declaredLength d = d.length - 4) : parseFullFrame d = bodyReference (d.drop 4) := by
  rw [parseFullFrame_eq_reference]
  obtain ⟨b0, b1, b2, b3, body, rfl, hlen⟩ := exists_body_of_declared h4 hdecl
  rw [frameReference, if_neg (not_not_intro hlen)]
  rfl

private theorem referenceDecode_single {maxFrame maxEmpty : Nat} (h4 : 4 ≤ d.length)
    (hdecl : declaredLength d = d.length - 4) (hmax : d.length - 4 ≤ maxFrame) :
    (referenceDecode maxFrame maxEmpty 0 d).1 = dispatchFrame d := by
  have hparse := parseFullFrame_of_declared h4 hdecl
  obtain ⟨b0, b1, b2, b3, body, rfl, hlen⟩ := exists_body_of_declared h4 hdecl
  have hle : body.length ≤ maxFrame := hmax
  have hend : ∀ count, referenceDecode maxFrame maxEmpty count [] = ([], false) := by
    intro count
    rw [referenceDecode]
    rintro _ _ _ _ _ ⟨⟩
  rw [referenceDecode, hlen]
  split
  · next h0 =>
    -- an empty frame is skipped; the parser would refuse it
    have hnil : body = [] := List.eq_nil_of_length_eq_zero h0
    have hskip : dispatchFrame (b0 :: b1 :: b2 :: b3 :: body) = [] := by
      rw [dispatchFrame, hparse, hnil]
      rfl
    rw [hskip, hnil, hend]
    split <;> rfl
  · rw [if_neg (by omega), if_neg (Nat.lt_irrefl _), List.take_length, List.drop_length, hend]
    exact List.append_nil _

/-- The checks on a datagram whose length is declared right. -/
private theorem frame?_examineDatagram (hfit : d.length ≤ recvBuffer.bytes.length)
    (h4 : 4 ≤ d.length) (hdecl : declaredLength d = d.length - 4) :
    (examineDatagram (recvBuffer.recvfrom d).bytes d.length).frame?.toList = dispatchFrame d := by
  have hparse := parseFullFrame_of_declared h4 hdecl
  by_cases h8 : d.length < 8
  · have hshort : ∀ r, parseFullFrame d ≠ .ok r := by
      intro r
      rw [hparse]
      exact bodyReference_short (by rw [List.length_drop]; omega) r
    rw [examineDatagram, if_pos h8, dispatchFrame]
    cases hr : parseFullFrame d with
    | ok r => exact absurd hr (hshort r)
    | error e => rfl
  · have hmax : d.length ≤ maxUdpDatagram := Nat.le_trans hfit recvBuffer.size_le
    rw [maxUdpDatagram] at hmax
    rw [examineDatagram_eq_reference hfit (by omega) (by omega), if_neg (by omega), hdecl,
      List.take_of_length_le (Nat.le_of_eq List.length_drop), dispatchFrame, hparse]
    cases bodyReference (d.drop 4) <;> rfl

namespace UdpIngestServer

/-- The frame of an outcome is what the loop creates an event from, unless the parser left the
buffer. -/
theorem recordOutcome_of_inside (s : UdpIngestServer) (tryPush : Bool) {outcome : DatagramOutcome}
    (hin : ∀ frameLen index, outcome ≠ .parsed frameLen (.error (.outOfBounds index))) :
    ∃ s', s.recordOutcome tryPush outcome = .ok (s', outcome.frame?) ∧
      s'.recvBuffer = s.recvBuffer := by
  match outcome with
  | .tooSmall | .invalidLength _ | .parsed _ (.error (.runtimeError _)) => exact ⟨_, rfl, rfl⟩
  | .parsed frameLen (.error (.outOfBounds index)) => exact absurd rfl (hin frameLen index)
  | .parsed _ (.ok frame) => cases tryPush <;> exact ⟨_, rfl, rfl⟩

/-- A turn with a datagram that fits creates an event from what the checks leave. -/
theorem receiveTurn_frame (s : UdpIngestServer) (tryPush : Bool) (hne : 0 < d.length)
    (hfit : d.length ≤ s.recvBuffer.bytes.length) (hsound : LengthCheckSound s.recvBuffer d) :
    ∃ s', s.receiveTurn (.ok d) tryPush =
        .ok (s', (examineDatagram (s.recvBuffer.recvfrom d).bytes d.length).frame?) ∧
      s'.recvBuffer = s.recvBuffer.recvfrom d := by
  simp only [receiveTurn, Nat.min_eq_left hfit, if_neg (Nat.ne_of_gt hne)]
  apply recordOutcome_of_inside
  intro frameLen index hout
  exact (hsound.reads_inside frameLen _ hout).2 index rfl

/-- A datagram that is one frame gives the event that the same bytes on a connection give, and
none that the parser would accept is too small. -/
theorem receiveTurn_handleClient_agree (s : UdpIngestServer) (tryPush : Bool)
    (h4 : 4 ≤ d.length) (hfit : d.length ≤ s.recvBuffer.bytes.length)
    (hdecl : declaredLength d = d.length - 4) (c : Chunking TcpIngestServer.kBufferChunk d) :
    (∃ s' frame, s.receiveTurn (.ok d) tryPush = .ok (s', frame) ∧
      (TcpIngestServer.handleClient .initial (c.chunks.map .ok)).1 = frame.toList) ∧
    (d.length < 8 → ∀ frame, parseFullFrame d ≠ .ok frame) := by
  have hmax : d.length ≤ maxUdpDatagram := Nat.le_trans hfit s.recvBuffer.size_le
  rw [maxUdpDatagram] at hmax
  constructor
  · have hsound : LengthCheckSound s.recvBuffer d := by
      by_cases h8 : d.length < 8
      · exact lengthCheckSound_of_small h8
      · exact lengthCheckSound_of_lt hfit (by omega) (by omega)
    obtain ⟨s', hturn, -⟩ := s.receiveTurn_frame tryPush (by omega) hfit hsound
    refine ⟨s', _, hturn, ?_⟩
    rw [frame?_examineDatagram hfit h4 hdecl, TcpIngestServer.handleClient_eq_reference c,
      referenceDecode_single h4 hdecl (by rw [TcpIngestServer.kMaxBufferSize]; omega)]
  · intro h8 frame
    rw [parseFullFrame_of_declared h4 hdecl]
    exact bodyReference_short (by rw [List.length_drop]; omega) frame

/-- The agreement applies to a client frame in the buffer of the constructor. -/
theorem receiveTurn_handleClient_agree_minimal :
    ∃ s' frame, receiveTurn ⟨.resize 65536, 0, 0, 0, 0⟩ (.ok [0, 0, 0, 4, 1, 0, 1, 0x61]) true
        = .ok (s', frame) ∧
      (TcpIngestServer.handleClient .initial
        ([[0, 0], [0, 4, 1, 0, 1, 0x61]].map .ok)).1 = frame.toList :=
  (receiveTurn_handleClient_agree ⟨.resize 65536, 0, 0, 0, 0⟩ true (by decide)
    (by rw [RecvBuffer.resize, List.length_replicate]; decide) (by decide)
    ⟨[[0, 0], [0, 4, 1, 0, 1, 0x61]], by decide, by decide, rfl⟩).1

/-! ### Runs -/

/-- The frame of a datagram, read by itself. -/
def datagramFrame (d : Bytes) : Option ParsedFrame :=
  if d.length < 8 ∨ declaredLength d = 0 ∨ 4 + declaredLength d > d.length then none
  else (bodyReference ((d.drop 4).take (declaredLength d))).toOption

private theorem frame?_eq_datagramFrame (hfit : d.length ≤ recvBuffer.bytes.length)
    (hlen : d.length < 8 ∨ declaredLength d < 2 ^ 32 - 4) :
    (examineDatagram (recvBuffer.recvfrom d).bytes d.length).frame? = datagramFrame d := by
  unfold datagramFrame
  by_cases h8 : d.length < 8
  · rw [if_pos (.inl h8), examineDatagram, if_pos h8]
    rfl
  · rw [examineDatagram_eq_reference hfit (by omega) (hlen.resolve_left h8)]
    by_cases hbad : declaredLength d = 0 ∨ 4 + declaredLength d > d.length
    · rw [if_pos hbad, if_pos (.inr hbad)]
      rfl
    · rw [if_neg hbad, if_neg (not_or.mpr ⟨h8, hbad⟩)]
      cases bodyReference ((d.drop 4).take (declaredLength d)) <;> rfl

/-- What one `recvfrom` result creates an event from, by itself. -/
def turnFrame : Recv → Option ParsedFrame
  | .ok d => datagramFrame d
  | .error _ => none

/-- A turn reads its datagram by itself and leaves a buffer of the same size. -/
theorem receiveTurn_eq_turnFrame (s : UdpIngestServer) (recv : Recv) (tryPush : Bool)
    (hd : ∀ d, recv = .ok d → d.length ≤ s.recvBuffer.bytes.length ∧
      (d.length < 8 ∨ declaredLength d < 2 ^ 32 - 4)) :
    ∃ s', s.receiveTurn recv tryPush = .ok (s', turnFrame recv) ∧
      s'.recvBuffer.bytes.length = s.recvBuffer.bytes.length := by
  match recv with
  | .error _ => exact ⟨s, rfl, rfl⟩
  | .ok [] => exact ⟨s, by simp [receiveTurn, turnFrame, datagramFrame], rfl⟩
  | .ok (b :: bs) =>
    obtain ⟨hfit, hlen⟩ := hd _ rfl
    have hsound : LengthCheckSound s.recvBuffer (b :: bs) := by
      by_cases h8 : (b :: bs).length < 8
      · exact lengthCheckSound_of_small h8
      · exact lengthCheckSound_of_lt hfit (Nat.le_of_not_lt h8) (hlen.resolve_left h8)
    obtain ⟨s', hturn, hkeep⟩ := s.receiveTurn_frame tryPush (List.length_pos_of_mem
      List.mem_cons_self) hfit hsound
    rw [frame?_eq_datagramFrame hfit hlen] at hturn
    refine ⟨s', hturn, ?_⟩
    rw [hkeep, RecvBuffer.length_recvfrom]

/-- Over any run, every datagram whose declared length plus four stays within 32 bits is read by
itself, whatever came before it. -/
theorem receiveLoop_eq_reference (s : UdpIngestServer) (turns : List (Recv × Bool))
    (hd : ∀ turn ∈ turns, ∀ d, turn.1 = .ok d → d.length ≤ s.recvBuffer.bytes.length ∧
      (d.length < 8 ∨ declaredLength d < 2 ^ 32 - 4)) :
    ∃ s', s.receiveLoop turns =
      .ok (s', turns.flatMap fun turn ↦ (turnFrame turn.1).toList) := by
  induction turns generalizing s with
  | nil => exact ⟨s, rfl⟩
  | cons turn turns ih =>
    obtain ⟨s₁, hturn, hsize⟩ := s.receiveTurn_eq_turnFrame turn.1 turn.2
      (hd turn List.mem_cons_self)
    obtain ⟨s₂, hrest⟩ := ih s₁ fun t ht ↦ by
      rw [hsize]
      exact hd t (List.mem_cons_of_mem turn ht)
    refine ⟨s₂, ?_⟩
    rw [receiveLoop, hturn]
    change ((s₁.receiveLoop turns).bind fun r ↦ _) = _
    rw [hrest]
    rfl

end UdpIngestServer
end EventStreamCore.Ingest
