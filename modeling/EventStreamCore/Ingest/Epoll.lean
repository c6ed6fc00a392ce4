import EventStreamCore.Ingest.Tcp

/-!
# Epoll TCP ingest

`EpollIngestServer::handleRead` and `processBuffer`, `src/core/ingest/epoll.cpp:328–475`.
A guard in `processBuffer` clears the buffer and returns, meaning `handleRead` to
return false (`epoll.cpp:411–412`); `processBuffer` returns nothing, so `handleRead`
keeps the connection and later bytes are parsed again from an empty buffer.
-/

namespace EventStreamCore.Ingest.EpollIngestServer
open EventStreamCore.Lib EventStreamCore.Events

/-- `kReadChunk`, the most one `recv` returns; `epoll.cpp:24`. -/
def kReadChunk : Nat := 4086

/-- `kMaxFrameSize`; `epoll.cpp:25`. -/
def kMaxFrameSize : Nat := 10 * 1024 * 1024

/-- `kMaxEmptyFrames`; `epoll.cpp:26`. -/
def kMaxEmptyFrames : Nat := 10

/-- The framing part of `ConnectionState`, `epoll.hpp:70–78`; the address is only logged. -/
structure ConnectionState where
  buffer : Bytes
  emptyFrameCount : Nat
deriving DecidableEq, Repr

/-- A connection as `acceptConnections` registers it. -/
def ConnectionState.initial : ConnectionState := ⟨[], 0⟩

/-- How the loop of `processBuffer` is left: through its condition or a `break`, at some
offset, or through a guard. -/
inductive LoopExit where
  | compactFrom (offset emptyFrameCount : Nat)
  | guarded (emptyFrameCount : Nat)
deriving DecidableEq, Repr

/-- The loop of `processBuffer`, `epoll.cpp:390–466`. -/
def processLoop (buf : Bytes) (offset emptyFrameCount : Nat) : List ParsedFrame × LoopExit :=
  if offset < buf.length then
    match frameIteration kMaxFrameSize kMaxEmptyFrames buf offset emptyFrameCount with
    | .wait count => ([], .compactFrom offset count)
    | .skip count => processLoop buf (offset + 4) count
    | .violation count => ([], .guarded count)
    | .extract frameLen =>
      let fullFrame := (buf.drop offset).take (4 + frameLen)
      let later := processLoop buf (offset + (4 + frameLen)) 0
      (dispatchFrame fullFrame ++ later.1, later.2)
  else ([], .compactFrom offset emptyFrameCount)
termination_by buf.length - offset

/-- `processBuffer`, `epoll.cpp:386–475`: a guard clears the buffer and returns, otherwise
the consumed bytes are removed in one shot. -/
def processBuffer (state : ConnectionState) : List ParsedFrame × ConnectionState :=
  match processLoop state.buffer 0 state.emptyFrameCount with
  | (pushed, .guarded count) => (pushed, ⟨[], count⟩)
  | (pushed, .compactFrom offset count) =>
    (pushed, ⟨if offset ≥ state.buffer.length then []
      else if offset > 0 then state.buffer.drop offset else state.buffer, count⟩)

/-- `handleRead`, `epoll.cpp:328–373`, on the results of its successive `recv` calls. The
answer is false when the connection should be closed. -/
def handleRead (state : ConnectionState) :
    List Recv → List ParsedFrame × ConnectionState × Bool
  | [] => ([], state, true)
  | .ok [] :: _ => ([], state, false)
  | .error .wouldBlock :: _ => ([], state, true)
  | .error .failed :: _ => ([], state, false)
  | .ok (b :: bs) :: recvs =>
    let (pushed, state') := processBuffer { state with buffer := state.buffer ++ b :: bs }
    let (later, state'', keep) := handleRead state' recvs
    (pushed ++ later, state'', keep)

/-- The worker loop's handling of one connection, `epoll.cpp:297–302`: `handleRead` for
each readiness notification until it asks for the connection to be closed. -/
def serve (state : ConnectionState) : List (List Recv) → List ParsedFrame × Bool
  | [] => ([], false)
  | recvs :: notifications =>
    let (pushed, state', keep) := handleRead state recvs
    if keep then
      let later := serve state' notifications
      (pushed ++ later.1, later.2)
    else (pushed, true)

/-- A stream as the server meets it: chunks of at most `kReadChunk` bytes, grouped by the
notification under which they are read. -/
structure Arrival (stream : Bytes) extends Chunking kReadChunk stream where
  bursts : List (List Bytes)
  bursts_flatten : bursts.flatten = chunks

/-- The `recv` results of each notification: its chunks, then nothing more to read. -/
def Arrival.recvs {stream : Bytes} (a : Arrival stream) : List (List Recv) :=
  a.bursts.map fun chunks ↦ chunks.map .ok ++ [.error .wouldBlock]

/-! ### Agreement with the thread-per-client server -/

/-- Where the loop left the buffer; nothing is left of it after a guard. -/
def LoopExit.position : LoopExit → Option (Nat × Nat)
  | .compactFrom offset emptyFrameCount => some (offset, emptyFrameCount)
  | .guarded _ => none

private theorem sameLimits : frameIteration kMaxFrameSize kMaxEmptyFrames =
    frameIteration TcpIngestServer.kMaxBufferSize TcpIngestServer.maxEmptyFrames := rfl

/-- The two inner loops differ only in what follows a guard. -/
theorem processLoop_eq_parseLoop (buf : Bytes) (offset count : Nat) :
    (processLoop buf offset count).1 = (TcpIngestServer.parseLoop buf offset count).1 ∧
    (processLoop buf offset count).2.position =
      (TcpIngestServer.parseLoop buf offset count).2 := by
  fun_induction processLoop buf offset count with
  | case1 offset count h c hi =>
    rw [TcpIngestServer.parseLoop, if_pos h, ← sameLimits, hi]
    exact ⟨rfl, rfl⟩
  | case2 offset count h c hi ih =>
    rw [TcpIngestServer.parseLoop, if_pos h, ← sameLimits, hi]
    exact ih
  | case3 offset count h c hi =>
    rw [TcpIngestServer.parseLoop, if_pos h, ← sameLimits, hi]
    exact ⟨rfl, rfl⟩
  | case4 offset count h frameLen hi fullFrame later ih =>
    rw [TcpIngestServer.parseLoop, if_pos h, ← sameLimits, hi]
    exact ⟨congrArg _ ih.1, ih.2⟩
  | case5 offset count h =>
    rw [TcpIngestServer.parseLoop, if_neg h]
    exact ⟨rfl, rfl⟩

/-- As long as no guard is met, `processBuffer` drains its buffer. -/
theorem processBuffer_of_drain (state : ConnectionState) {out : List ParsedFrame} {count : Nat}
    {rest : Bytes} (h : TcpIngestServer.framer.drain state.emptyFrameCount state.buffer =
      (out, some (count, rest))) :
    processBuffer state = (out, ⟨rest, count⟩) := by
  obtain ⟨hl1, hl2⟩ := processLoop_eq_parseLoop state.buffer 0 state.emptyFrameCount
  obtain ⟨hd1, hd2⟩ :=
    TcpIngestServer.parseLoop_eq_drain state.buffer 0 state.emptyFrameCount
  rw [← hl1, List.drop_zero, h] at hd1
  rw [← hl2, List.drop_zero, h] at hd2
  unfold processBuffer
  cases hp : processLoop state.buffer 0 state.emptyFrameCount with
  | mk pushed result =>
    rw [hp] at hd1 hd2
    cases result with
    | guarded c => cases hd2
    | compactFrom offset c =>
      obtain ⟨rfl, hr⟩ := Prod.mk.inj (Option.some.inj hd2)
      simp only at hr hd1
      subst hd1 hr
      simp only [Prod.mk.injEq, ConnectionState.mk.injEq, and_true, true_and]
      split
      · next hge => rw [List.drop_of_length_le hge]
      · split
        · rfl
        · rw [show offset = 0 by omega, List.drop_zero]

/-- One read of data. -/
theorem handleRead_data (state : ConnectionState) {chunk : Bytes} (h : chunk ≠ [])
    (recvs : List Recv) :
    let r := processBuffer { state with buffer := state.buffer ++ chunk }
    handleRead state (.ok chunk :: recvs) =
      (r.1 ++ (handleRead r.2 recvs).1, (handleRead r.2 recvs).2) := by
  obtain ⟨b, bs, rfl⟩ := List.exists_cons_of_ne_nil h
  rw [handleRead]

private theorem handleRead_of_feed (chunks : List Bytes) (hne : ∀ c ∈ chunks, c ≠ [])
    (state : ConnectionState) {out : List ParsedFrame} {count : Nat} {rest : Bytes}
    (h : TcpIngestServer.framer.feed (state.emptyFrameCount, state.buffer) chunks =
      (out, some (count, rest))) :
    handleRead state (chunks.map .ok ++ [.error .wouldBlock]) = (out, ⟨rest, count⟩, true) := by
  induction chunks generalizing state out with
  | nil =>
    simp only [Framer.feed, Prod.mk.injEq, Option.some.injEq] at h
    obtain ⟨rfl, rfl, rfl⟩ := h
    rfl
  | cons chunk chunks ih =>
    rw [Framer.feed] at h
    cases hd : TcpIngestServer.framer.drain state.emptyFrameCount (state.buffer ++ chunk) with
    | mk pushed result =>
      rw [hd] at h
      cases result with
      | none => cases h
      | some r =>
        simp only [Prod.mk.injEq] at h
        obtain ⟨rfl, h2⟩ := h
        have hp := processBuffer_of_drain { state with buffer := state.buffer ++ chunk } hd
        have hf : TcpIngestServer.framer.feed r chunks =
            ((TcpIngestServer.framer.feed r chunks).1, some (count, rest)) := Prod.ext rfl h2
        have hi := ih (fun c h ↦ hne c (List.mem_cons_of_mem _ h)) ⟨r.2, r.1⟩ hf
        rw [List.map_cons, List.cons_append, handleRead_data state (hne _ List.mem_cons_self), hp]
        simp only [hi]

/-- Data alone never makes `handleRead` ask for the connection to be closed. -/
theorem handleRead_keeps (chunks : List Bytes) (hne : ∀ c ∈ chunks, c ≠ [])
    (state : ConnectionState) :
    (handleRead state (chunks.map .ok ++ [.error .wouldBlock])).2.2 = true := by
  induction chunks generalizing state with
  | nil => rfl
  | cons chunk chunks ih =>
    rw [List.map_cons, List.cons_append, handleRead_data state (hne _ List.mem_cons_self)]
    exact ih (fun c h ↦ hne c (List.mem_cons_of_mem _ h)) _

theorem serve_keeps (bursts : List (List Bytes)) (hne : ∀ c ∈ bursts.flatten, c ≠ [])
    (state : ConnectionState) :
    (serve state (bursts.map fun chunks ↦ chunks.map .ok ++ [.error .wouldBlock])).2 = false := by
  induction bursts generalizing state with
  | nil => rfl
  | cons chunks bursts ih =>
    have hk := handleRead_keeps chunks
      (fun c h ↦ hne c (List.mem_flatten.mpr ⟨chunks, by simp, h⟩)) state
    rw [List.map_cons, serve]
    cases hr : handleRead state (chunks.map .ok ++ [.error .wouldBlock]) with
    | mk pushed result =>
      rw [hr] at hk
      change result.2 = true at hk
      simp only [hk, if_true]
      apply ih
      intro c h
      apply hne
      rw [List.flatten_cons]
      exact List.mem_append_right _ h

theorem serve_of_feed (bursts : List (List Bytes)) (hne : ∀ c ∈ bursts.flatten, c ≠ [])
    (state : ConnectionState)
    (h : (TcpIngestServer.framer.feed (state.emptyFrameCount, state.buffer) bursts.flatten).2 ≠
      none) :
    (serve state (bursts.map fun chunks ↦ chunks.map .ok ++ [.error .wouldBlock])).1 =
      (TcpIngestServer.framer.feed (state.emptyFrameCount, state.buffer) bursts.flatten).1 := by
  induction bursts generalizing state with
  | nil => rfl
  | cons chunks bursts ih =>
    rw [List.flatten_cons, Framer.feed_append] at h
    rw [List.flatten_cons, Framer.feed_append]
    cases hf : TcpIngestServer.framer.feed (state.emptyFrameCount, state.buffer) chunks with
    | mk out result =>
      rw [hf] at h
      cases result with
      | none => exact False.elim (h rfl)
      | some r =>
        have hr := handleRead_of_feed chunks
          (fun c h ↦ hne c (List.mem_flatten.mpr ⟨chunks, by simp, h⟩)) state hf
        rw [List.map_cons, serve, hr]
        simp only [if_true]
        congr 1
        exact ih (fun c h ↦ hne c (by rw [List.flatten_cons]; exact List.mem_append_right _ h))
          ⟨r.2, r.1⟩ h

/-- Both servers hand over the same triples of a stream and agree on whether its data
close the connection. -/
def SameFraming {stream : Bytes} (c : Chunking TcpIngestServer.kBufferChunk stream)
    (a : Arrival stream) : Prop :=
  serve .initial a.recvs = TcpIngestServer.handleClient .initial (c.chunks.map .ok)

/-- The two servers frame a stream alike exactly when it violates neither guard: on a
violation the thread-per-client server closes and this one does not. -/
theorem sameFraming_iff_wellFramed (stream : Bytes)
    (c : Chunking TcpIngestServer.kBufferChunk stream) (a : Arrival stream) :
    SameFraming c a ↔ WellFramed kMaxFrameSize kMaxEmptyFrames stream := by
  have hne : ∀ x ∈ a.bursts.flatten, x ≠ [] := by
    rw [a.bursts_flatten]
    exact a.nonempty
  have hw : TcpIngestServer.framer.look 0 [] = .need 0 := rfl
  have hfeed := Framer.feed_eq_drain_flatten TcpIngestServer.framer hw a.bursts.flatten
  rw [a.bursts_flatten, a.flatten_eq] at hfeed
  have hserve := serve_of_feed a.bursts hne .initial
  rw [a.bursts_flatten] at hserve
  change (TcpIngestServer.framer.feed (0, []) a.chunks).2 ≠ none →
    (serve .initial a.recvs).1 = (TcpIngestServer.framer.feed (0, []) a.chunks).1 at hserve
  rw [hfeed] at hserve
  have hopen : (serve .initial a.recvs).2 = false := serve_keeps a.bursts hne .initial
  have hviolation : (TcpIngestServer.framer.drain 0 stream).2 ≠ none ↔
      WellFramed kMaxFrameSize kMaxEmptyFrames stream := drain_ne_none_iff_wellFramed stream
  rw [SameFraming, TcpIngestServer.handleClient_chunks c.chunks c.nonempty, c.flatten_eq,
    ← hviolation]
  constructor
  · intro h hnone
    rw [h, hnone] at hopen
    cases hopen
  · intro h
    apply Prod.ext
    · exact hserve h
    · rw [hopen]
      cases hd : (TcpIngestServer.framer.drain 0 stream).2 with
      | none => exact False.elim (h hd)
      | some r => rfl

/-- After a declared length above the limit the thread-per-client server closes, while
this one keeps the connection and delivers the frame behind it. -/
theorem serve_after_violation :
    ∃ (c : Chunking TcpIngestServer.kBufferChunk
        ([255, 255, 255, 255] ++ createEventFrame 0 [116] []))
      (a : Arrival ([255, 255, 255, 255] ++ createEventFrame 0 [116] [])),
      TcpIngestServer.handleClient .initial (c.chunks.map .ok) = ([], true) ∧
      serve .initial a.recvs = ([⟨.batch, [116], []⟩], false) ∧ ¬ SameFraming c a := by
  refine ⟨⟨[[255, 255, 255, 255], createEventFrame 0 [116] []], by decide, by decide, rfl⟩,
    ⟨⟨[[255, 255, 255, 255], createEventFrame 0 [116] []], by decide, by decide, rfl⟩,
      [[[255, 255, 255, 255]], [createEventFrame 0 [116] []]], rfl⟩, ?_, ?_, ?_⟩
  · decide +kernel
  · decide +kernel
  · unfold SameFraming
    decide +kernel

end EventStreamCore.Ingest.EpollIngestServer
