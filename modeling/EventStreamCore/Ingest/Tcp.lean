import EventStreamCore.Ingest.FrameStream

/-!
# Thread-per-client TCP ingest

`TcpIngestServer::handleClient`, `src/core/ingest/tcp.cpp:173–274`, while `isRunning`
stays set. The model keeps the source's offset into the accumulation buffer, the two
ways of compacting it and the thread-local count of empty frames, which starts at
zero because every client has a thread of its own. A triple counts as handed to the
dispatcher when `tryPush` is called on it, whatever `tryPush` answers.
-/

namespace EventStreamCore.Ingest.TcpIngestServer
open EventStreamCore.Lib EventStreamCore.Events

/-- `kBufferChunk`, the most one `recv` returns. -/
def kBufferChunk : Nat := 4096

/-- `kMaxBufferSize`, the largest frame length accepted. -/
def kMaxBufferSize : Nat := 10 * 1024 * 1024

/-- `MAX_EMPTY_FRAMES`, the consecutive empty frames tolerated. -/
def maxEmptyFrames : Nat := 10

/-- What `handleClient` keeps between two reads: `clientBuffer` and `empty_frame_count`. -/
structure ClientState where
  clientBuffer : Bytes
  emptyFrameCount : Nat
deriving DecidableEq, Repr

/-- A fresh connection. -/
def ClientState.initial : ClientState := ⟨[], 0⟩

/-- The inner loop, `tcp.cpp:192–261`: the triples handed over and, unless the connection
was closed, the final offset and count. -/
def parseLoop (clientBuffer : Bytes) (bufferOffset emptyFrameCount : Nat) :
    List ParsedFrame × Option (Nat × Nat) :=
  if bufferOffset < clientBuffer.length then
    match frameIteration kMaxBufferSize maxEmptyFrames clientBuffer bufferOffset
        emptyFrameCount with
    | .wait count => ([], some (bufferOffset, count))
    | .skip count => parseLoop clientBuffer (bufferOffset + 4) count
    | .violation _ => ([], none)
    | .extract frameLen =>
      let fullFrame := (clientBuffer.drop bufferOffset).take (4 + frameLen)
      let later := parseLoop clientBuffer (bufferOffset + (4 + frameLen)) 0
      (dispatchFrame fullFrame ++ later.1, later.2)
  else ([], some (bufferOffset, emptyFrameCount))
termination_by clientBuffer.length - bufferOffset

/-- Dropping consumed data, `tcp.cpp:263–268`. -/
def compact (clientBuffer : Bytes) (bufferOffset : Nat) : Bytes :=
  if bufferOffset > 0 ∧ bufferOffset < clientBuffer.length then clientBuffer.drop bufferOffset
  else if bufferOffset ≥ clientBuffer.length then []
  else clientBuffer

/-- One round of the outer loop on a non-empty read; no state remains of a closed
connection. -/
def parseRound (st : ClientState) (chunk : Bytes) : List ParsedFrame × Option ClientState :=
  let clientBuffer := st.clientBuffer ++ chunk
  let (pushed, result) := parseLoop clientBuffer 0 st.emptyFrameCount
  (pushed, result.map fun (bufferOffset, count) ↦ ⟨compact clientBuffer bufferOffset, count⟩)

/-- `handleClient` on the results of its successive `recv` calls: the triples handed to
the dispatcher, and whether the data made it close the connection. The loop also ends
at the first read of no bytes or error. -/
def handleClient (st : ClientState) : List Recv → List ParsedFrame × Bool
  | [] => ([], false)
  | .error _ :: _ => ([], false)
  | .ok [] :: _ => ([], false)
  | .ok (b :: bs) :: recvs =>
    match parseRound st (b :: bs) with
    | (pushed, none) => (pushed, true)
    | (pushed, some st') =>
      let later := handleClient st' recvs
      (pushed ++ later.1, later.2)

/-- The decoder behind the loop. -/
def framer : Framer Nat UInt8 ParsedFrame := frameFramer kMaxBufferSize maxEmptyFrames

private theorem compact_eq_drop (buf : Bytes) (offset : Nat) :
    compact buf offset = buf.drop offset := by
  unfold compact
  split
  · rfl
  · split
    · next h => rw [List.drop_of_length_le h]
    · rw [show offset = 0 by omega, List.drop_zero]

/-- The offset loop drains the buffer behind its offset. -/
theorem parseLoop_eq_drain (buf : Bytes) (offset count : Nat) :
    (parseLoop buf offset count).1 = (framer.drain count (buf.drop offset)).1 ∧
    (parseLoop buf offset count).2.map (fun r ↦ (r.2, buf.drop r.1)) =
      (framer.drain count (buf.drop offset)).2 := by
  fun_induction parseLoop buf offset count with
  | case1 offset count h c hi =>
    have hl : framer.look count (buf.drop offset) = .need c := by
      change frameLook _ _ _ _ = _
      rw [frameLook, ← frameIteration_drop, hi]
    rw [Framer.drain_need framer hl]
    exact ⟨rfl, rfl⟩
  | case2 offset count h c hi ih =>
    have hl : framer.look count (buf.drop offset) = .take 4 [] c := by
      change frameLook _ _ _ _ = _
      rw [frameLook, ← frameIteration_drop, hi]
    rw [Framer.drain_take framer hl, List.drop_drop, List.nil_append]
    exact ih
  | case3 offset count h c hi =>
    have hl : framer.look count (buf.drop offset) = .halt := by
      change frameLook _ _ _ _ = _
      rw [frameLook, ← frameIteration_drop, hi]
    rw [Framer.drain_halt framer hl]
    exact ⟨rfl, rfl⟩
  | case4 offset count h frameLen hi fullFrame later ih =>
    have hl : framer.look count (buf.drop offset) =
        .take (4 + frameLen) (dispatchFrame ((buf.drop offset).take (4 + frameLen))) 0 := by
      change frameLook _ _ _ _ = _
      rw [frameLook, ← frameIteration_drop, hi]
    rw [Framer.drain_take framer hl, List.drop_drop]
    exact ⟨congrArg _ ih.1, ih.2⟩
  | case5 offset count h =>
    have hd : buf.drop offset = [] := List.drop_of_length_le (Nat.le_of_not_lt h)
    have hl : framer.look count (buf.drop offset) = .need count := by
      change frameLook _ _ _ _ = _
      rw [frameLook, frameIteration_short (by simp [hd])]
    rw [Framer.drain_need framer hl]
    exact ⟨rfl, rfl⟩

/-- A round drains the residual buffer together with the chunk. -/
theorem parseRound_eq_drain (st : ClientState) (chunk : Bytes) :
    parseRound st chunk =
      ((framer.drain st.emptyFrameCount (st.clientBuffer ++ chunk)).1,
        (framer.drain st.emptyFrameCount (st.clientBuffer ++ chunk)).2.map
          fun r ↦ ⟨r.2, r.1⟩) := by
  obtain ⟨h1, h2⟩ := parseLoop_eq_drain (st.clientBuffer ++ chunk) 0 st.emptyFrameCount
  rw [List.drop_zero] at h1 h2
  simp only [parseRound, ← h1, ← h2, Option.map_map, compact_eq_drop]
  rfl

private theorem handleClient_eq_feed (chunks : List Bytes) (hne : ∀ c ∈ chunks, c ≠ [])
    (st : ClientState) :
    handleClient st (chunks.map .ok) =
      ((framer.feed (st.emptyFrameCount, st.clientBuffer) chunks).1,
        (framer.feed (st.emptyFrameCount, st.clientBuffer) chunks).2.isNone) := by
  induction chunks generalizing st with
  | nil => rfl
  | cons chunk chunks ih =>
    obtain ⟨b, bs, rfl⟩ := List.exists_cons_of_ne_nil (hne chunk List.mem_cons_self)
    rw [List.map_cons, handleClient, parseRound_eq_drain, Framer.feed]
    cases framer.drain st.emptyFrameCount (st.clientBuffer ++ b :: bs) with
    | mk pushed result =>
      cases result with
      | none => rfl
      | some r =>
        simp only [Option.map_some, ih (fun c h ↦ hne c (List.mem_cons_of_mem _ h))]

/-- Chunks arriving on a fresh connection are decoded as their concatenation. -/
theorem handleClient_chunks (chunks : List Bytes) (hne : ∀ c ∈ chunks, c ≠ []) :
    handleClient .initial (chunks.map .ok) =
      ((framer.drain 0 chunks.flatten).1, (framer.drain 0 chunks.flatten).2.isNone) := by
  have hw : framer.look 0 [] = .need 0 := rfl
  rw [handleClient_eq_feed chunks hne]
  change ((framer.feed (0, []) chunks).1, (framer.feed (0, []) chunks).2.isNone) = _
  rw [Framer.feed_eq_drain_flatten framer hw]

/-- However a stream arrives, it is decoded as a whole. -/
theorem handleClient_eq_reference {stream : Bytes} (c : Chunking kBufferChunk stream) :
    handleClient .initial (c.chunks.map .ok) =
      referenceDecode kMaxBufferSize maxEmptyFrames 0 stream := by
  rw [handleClient_chunks c.chunks c.nonempty, c.flatten_eq, referenceDecode_eq_drain]
  rfl

/-- Reassembly does not depend on chunking: what is handed to the dispatcher, and whether
the server closes the connection by itself, are those of the reference decoder on the
whole stream; so any two splittings agree. -/
theorem handleClient_chunking (stream : Bytes) (c c' : Chunking kBufferChunk stream) :
    handleClient .initial (c.chunks.map .ok) =
      referenceDecode kMaxBufferSize maxEmptyFrames 0 stream ∧
    handleClient .initial (c.chunks.map .ok) = handleClient .initial (c'.chunks.map .ok) := by
  constructor
  · exact handleClient_eq_reference c
  · rw [handleClient_eq_reference c, handleClient_eq_reference c']

end EventStreamCore.Ingest.TcpIngestServer
