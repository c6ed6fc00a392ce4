import EventStreamCore.Ingest.Epoll
import EventStreamCore.Lib.Machine

/-!
# Closing an epoll connection

`EpollIngestServer::workerLoop`, `src/core/ingest/epoll.cpp:268–311`, with `handleRead` cut at
its `recv` calls, `epoll.cpp:328–373`, on one connection and the kernel's side of it: bytes and
then a FIN arrive in the receive buffer at any time, each arrival queues the connection for
`epoll_wait`, and `epoll_wait` reports what the socket is ready for when it returns: EPOLLIN for
unread data or a FIN, EPOLLRDHUP for a FIN. Errors on the socket and the end of the server are
left out.
-/

namespace EventStreamCore.Ingest.EpollIngestServer
open EventStreamCore.Lib EventStreamCore.Events

/-- Where the worker stands with the connection: in `epoll_wait`, with flags to look at, in the
loop of `handleRead`, or done. -/
inductive WorkerPc where
  | waiting
  | reported (epollin epollrdhup : Bool)
  | reading
  | closed
deriving DecidableEq, Repr

/-- The connection: what the peer has still to send, the kernel's receive buffer and whether the
FIN has arrived, whether `epoll_wait` has something to report, the worker, the framing state,
and the triples handed over. -/
structure Connection where
  toSend : Bytes
  unread : Bytes
  fin : Bool
  queued : Bool
  worker : WorkerPc
  state : ConnectionState
  handed : List ParsedFrame
deriving DecidableEq, Repr

/-- What happens next: the next `n` bytes or the FIN arrive, `epoll_wait` returns, the worker
looks at the flags, or it calls `recv`, which gives up to `n` bytes. -/
inductive ConnectionLabel where
  | arrive (n : Nat)
  | arriveFin
  | epollWait
  | dispatch
  | recv (n : Nat)
deriving DecidableEq, Repr

namespace Connection

/-- A connection just accepted. -/
def initial (stream : Bytes) : Connection :=
  ⟨stream, [], false, false, .waiting, .initial, []⟩

/-- What `recv` returns. -/
def recvResult (s : Connection) (n : Nat) : Recv :=
  if s.unread.isEmpty then if s.fin then .ok [] else .error .wouldBlock
  else .ok (s.unread.take n)

/-- One round of the loop of `handleRead`; `epoll.cpp:345–369`. -/
def stepRecv (s : Connection) (n : Nat) : Connection :=
  match s.recvResult n with
  | .ok [] => { s with worker := .closed }
  | .error _ => { s with worker := .waiting }
  | .ok chunk =>
    let (pushed, state) := processBuffer { s.state with buffer := s.state.buffer ++ chunk }
    { s with unread := s.unread.drop n, state, handed := s.handed ++ pushed }

/-- One step. -/
def step (s : Connection) : ConnectionLabel → Option Connection
  | .arrive n =>
    if 0 < n ∧ n ≤ s.toSend.length then
      some { s with
        toSend := s.toSend.drop n
        unread := s.unread ++ s.toSend.take n
        queued := true }
    else none
  | .arriveFin =>
    if s.toSend = [] ∧ s.fin = false then some { s with fin := true, queued := true } else none
  | .epollWait =>
    if s.worker = .waiting ∧ s.queued then
      -- nothing is reported of what has been read in the meantime
      if s.unread = [] ∧ s.fin = false then some { s with queued := false }
      else some { s with queued := false, worker := .reported true s.fin }
    else none
  | .dispatch =>
    match s.worker with
    | .reported epollin epollrdhup =>
      some { s with
        worker := if epollrdhup then .closed else if epollin then .reading else .waiting }
    | _ => none
  | .recv n =>
    if s.worker = .reading ∧ 0 < n ∧ n ≤ kReadChunk then some (s.stepRecv n) else none

/-- If the step closes the connection, every complete frame of the stream has been handed over,
as by the thread-per-client server. -/
def DeliversAll {stream : Bytes} (c : Chunking TcpIngestServer.kBufferChunk stream)
    (s : Connection) (l : ConnectionLabel) : Prop :=
  ∀ t, s.step l = some t → s.worker ≠ .closed → t.worker = .closed →
    t.handed = (TcpIngestServer.handleClient .initial (c.chunks.map .ok)).1

/-- No connection is closed on its flags while the bytes not yet read complete a frame. -/
def ReadBeforeClose (s : Connection) : ConnectionLabel → Prop
  | .dispatch => ∀ epollin, s.worker = .reported epollin true →
      (TcpIngestServer.framer.drain s.state.emptyFrameCount (s.state.buffer ++ s.unread)).1 = []
  | _ => True

instance (s : Connection) (l : ConnectionLabel) : Decidable (s.ReadBeforeClose l) :=
  match l with
  | .dispatch => inferInstanceAs (Decidable (∀ epollin, s.worker = .reported epollin true →
      (TcpIngestServer.framer.drain s.state.emptyFrameCount
        (s.state.buffer ++ s.unread)).1 = []))
  | .arrive _ | .arriveFin | .epollWait | .recv _ => .isTrue trivial

end Connection

/-- All orders of arrivals and worker steps. -/
def connection (stream : Bytes) : Machine Connection ConnectionLabel where
  start := Connection.initial stream
  step := Connection.step

namespace Connection

variable {stream : Bytes} {s t : Connection}

/-- The stream is what was read, what waits in the kernel and what is still to come; what was
read has been decoded, and no FIN is seen before it arrives after all the data. -/
structure Inv (stream : Bytes) (s : Connection) : Prop where
  decoded : ∃ consumed, stream = consumed ++ s.unread ++ s.toSend ∧
    TcpIngestServer.framer.drain 0 consumed =
      (s.handed, some (s.state.emptyFrameCount, s.state.buffer))
  fin : s.fin = true → s.toSend = []
  reported : ∀ epollin, s.worker = .reported epollin true → s.fin = true

/-- A new connection. -/
theorem Inv.initial (stream : Bytes) : (Connection.initial stream).Inv stream where
  decoded := ⟨[], rfl, Framer.drain_need _ rfl⟩
  fin h := by cases h
  reported _ h := by cases h

/-- What the decoder makes of the stream once everything has arrived. -/
theorem Inv.drain_stream (h : s.Inv stream) (hfin : s.fin = true) :
    (TcpIngestServer.framer.drain 0 stream).1 = s.handed ++
      (TcpIngestServer.framer.drain s.state.emptyFrameCount (s.state.buffer ++ s.unread)).1 := by
  obtain ⟨consumed, hstream, hdrain⟩ := h.decoded
  rw [h.fin hfin, List.append_nil] at hstream
  rw [hstream, Framer.drain_append, hdrain]

/-- Reading some bytes decodes them, as long as the stream violates no guard. -/
private theorem Inv.read (h : s.Inv stream)
    (hframed : (TcpIngestServer.framer.drain 0 stream).2 ≠ none) (n : Nat) :
    Inv stream
      { s with
        unread := s.unread.drop n
        state := (processBuffer { s.state with buffer := s.state.buffer ++ s.unread.take n }).2
        handed := s.handed ++
          (processBuffer { s.state with buffer := s.state.buffer ++ s.unread.take n }).1 } := by
  obtain ⟨consumed, hstream, hdrain⟩ := h.decoded
  have hsplit : stream = (consumed ++ s.unread.take n) ++ s.unread.drop n ++ s.toSend := by
    rw [List.append_assoc consumed (s.unread.take n), List.take_append_drop]
    exact hstream
  have hread := TcpIngestServer.framer.drain_append 0 consumed (s.unread.take n)
  rw [hdrain] at hread
  dsimp only at hread
  cases hchunk : TcpIngestServer.framer.drain s.state.emptyFrameCount
      (s.state.buffer ++ s.unread.take n) with
  | mk out result =>
    rw [hchunk] at hread
    cases result with
    | none =>
      -- a guard met in a first part of the stream is met in the whole
      refine absurd ?_ hframed
      rw [hsplit, List.append_assoc, Framer.drain_append, hread]
    | some position =>
      obtain ⟨count, rest⟩ := position
      have hbuffer := processBuffer_of_drain
        { s.state with buffer := s.state.buffer ++ s.unread.take n } hchunk
      rw [hbuffer]
      exact ⟨⟨consumed ++ s.unread.take n, hsplit, hread⟩, h.fin, h.reported⟩

/-- What a `recv` leads to: the end of the connection after the last byte, a wait for more, or
the decoding of what was read. -/
private theorem stepRecv_cases (s : Connection) {n : Nat} (hn : 0 < n) :
    (s.unread = [] ∧ s.fin = true ∧ s.stepRecv n = { s with worker := .closed }) ∨
    (s.unread = [] ∧ s.fin = false ∧ s.stepRecv n = { s with worker := .waiting }) ∨
    s.stepRecv n =
      { s with
        unread := s.unread.drop n
        state := (processBuffer { s.state with buffer := s.state.buffer ++ s.unread.take n }).2
        handed := s.handed ++
          (processBuffer { s.state with buffer := s.state.buffer ++ s.unread.take n }).1 } := by
  unfold stepRecv recvResult
  cases hunread : s.unread with
  | nil =>
    cases hfin : s.fin with
    | true => exact .inl ⟨rfl, rfl, rfl⟩
    | false => exact .inr (.inl ⟨rfl, rfl, rfl⟩)
  | cons b rest =>
    obtain ⟨k, rfl⟩ := Nat.exists_eq_succ_of_ne_zero (Nat.ne_of_gt hn)
    exact .inr (.inr rfl)

/-- One step of a connection whose stream violates no guard. -/
theorem Inv.step (h : s.Inv stream)
    (hframed : (TcpIngestServer.framer.drain 0 stream).2 ≠ none) {l : ConnectionLabel}
    (ht : s.step l = some t) : t.Inv stream := by
  cases l with
  | arrive n =>
    simp only [Connection.step] at ht
    split at ht
    · next hn =>
      cases ht
      obtain ⟨consumed, hstream, hdrain⟩ := h.decoded
      refine ⟨⟨consumed, ?_, hdrain⟩, fun hfin ↦ ?_, h.reported⟩
      · dsimp only
        rw [← List.append_assoc, List.append_assoc _ (s.toSend.take n), List.take_append_drop]
        exact hstream
      · rw [h.fin hfin, List.length_nil] at hn
        omega
    · cases ht
  | arriveFin =>
    simp only [Connection.step] at ht
    split at ht
    · next hsent =>
      cases ht
      exact ⟨h.decoded, fun _ ↦ hsent.1, fun _ _ ↦ rfl⟩
    · cases ht
  | epollWait =>
    simp only [Connection.step] at ht
    split at ht
    · split at ht
      · cases ht
        exact ⟨h.decoded, h.fin, h.reported⟩
      · cases ht
        refine ⟨h.decoded, h.fin, fun epollin he ↦ ?_⟩
        exact (WorkerPc.reported.inj he).2
    · cases ht
  | dispatch =>
    simp only [Connection.step] at ht
    split at ht
    · cases ht
      refine ⟨h.decoded, h.fin, fun epollin he ↦ ?_⟩
      dsimp only at he
      split at he
      · cases he
      · split at he <;> cases he
    · cases ht
  | recv n =>
    simp only [Connection.step] at ht
    split at ht
    · next hn =>
      cases ht
      obtain ⟨-, -, hs⟩ | ⟨-, -, hs⟩ | hs := s.stepRecv_cases hn.2.1
      · rw [hs]
        exact ⟨h.decoded, h.fin, fun _ he ↦ by cases he⟩
      · rw [hs]
        exact ⟨h.decoded, h.fin, fun _ he ↦ by cases he⟩
      · rw [hs]
        exact h.read hframed n
    · cases ht

private theorem keeps_open_of_step {t : Connection} {l : ConnectionLabel}
    (ht : s.step l = some t) (hdispatch : l ≠ .dispatch) (hrecv : ∀ n, l ≠ .recv n)
    (hclosed : t.worker = .closed) : s.worker = .closed := by
  cases l with
  | arrive n =>
    simp only [Connection.step] at ht
    split at ht
    · cases ht
      exact hclosed
    · cases ht
  | arriveFin =>
    simp only [Connection.step] at ht
    split at ht
    · cases ht
      exact hclosed
    · cases ht
  | epollWait =>
    simp only [Connection.step] at ht
    split at ht
    · split at ht
      · cases ht
        exact hclosed
      · cases ht
        cases hclosed
    · cases ht
  | dispatch => exact absurd rfl hdispatch
  | recv n => exact absurd rfl (hrecv n)

/-- Closing after the last byte was read loses nothing; closing on the flags loses what the
bytes not yet read complete. -/
private theorem Inv.deliversAll_iff (h : s.Inv stream)
    (c : Chunking TcpIngestServer.kBufferChunk stream) (l : ConnectionLabel) :
    s.DeliversAll c l ↔ s.ReadBeforeClose l := by
  have hexpected : (TcpIngestServer.handleClient .initial (c.chunks.map .ok)).1 =
      (TcpIngestServer.framer.drain 0 stream).1 := by
    rw [TcpIngestServer.handleClient_chunks c.chunks c.nonempty, c.flatten_eq]
  unfold DeliversAll
  rw [hexpected]
  cases l with
  | arrive n =>
    exact iff_of_true (fun t ht hopen hclosed ↦ absurd (keeps_open_of_step ht nofun nofun hclosed)
      hopen) trivial
  | arriveFin =>
    exact iff_of_true (fun t ht hopen hclosed ↦ absurd (keeps_open_of_step ht nofun nofun hclosed)
      hopen) trivial
  | epollWait =>
    exact iff_of_true (fun t ht hopen hclosed ↦ absurd (keeps_open_of_step ht nofun nofun hclosed)
      hopen) trivial
  | dispatch =>
    constructor
    · intro hall epollin hreported
      have hfin := h.reported epollin hreported
      have hlast := hall { s with worker := .closed }
        (by simp only [Connection.step, hreported, if_true])
        (by rw [hreported]; exact nofun) rfl
      rw [h.drain_stream hfin] at hlast
      exact List.self_eq_append_right.mp hlast
    · intro hread t ht hopen hclosed
      simp only [Connection.step] at ht
      split at ht
      · next epollin epollrdhup hreported =>
        cases ht
        cases epollrdhup with
        | true =>
          have hfin := h.reported epollin hreported
          rw [h.drain_stream hfin, hread epollin hreported, List.append_nil]
        | false => cases epollin <;> cases hclosed
      · cases ht
  | recv n =>
    refine iff_of_true (fun t ht hopen hclosed ↦ ?_) trivial
    simp only [Connection.step] at ht
    split at ht
    · next hn =>
      cases ht
      obtain ⟨hunread, hfin, hs⟩ | ⟨-, -, hs⟩ | hs := s.stepRecv_cases hn.2.1
      · obtain ⟨consumed, hstream, hdrain⟩ := h.decoded
        rw [h.fin hfin, hunread, List.append_nil, List.append_nil] at hstream
        rw [hs, hstream, hdrain]
      · rw [hs] at hclosed
        cases hclosed
      · rw [hs] at hclosed
        exact absurd hclosed hopen
    · cases ht

end Connection

/-- For a stream that violates no guard, in every order of arrivals and worker steps: closing
the connection leaves no complete frame behind exactly when it is not closed on EPOLLRDHUP
while the bytes not yet read complete a frame. -/
theorem deliversAll_along_iff {stream : Bytes}
    (hframed : WellFramed kMaxFrameSize kMaxEmptyFrames stream)
    (c : Chunking TcpIngestServer.kBufferChunk stream) (ls : List ConnectionLabel) :
    (connection stream).Along (Connection.DeliversAll c) (connection stream).start ls ↔
    (connection stream).Along Connection.ReadBeforeClose (connection stream).start ls := by
  have hdrain : (TcpIngestServer.framer.drain 0 stream).2 ≠ none :=
    (drain_ne_none_iff_wellFramed stream).mpr hframed
  exact Machine.along_congr (I := Connection.Inv stream)
    (fun _ l h ↦ h.deliversAll_iff c l) (fun _ _ _ h _ ht ↦ h.step hdrain ht)
    (Connection.Inv.initial stream) ls

/-- The FIN arrives after the frame was read. -/
theorem deliversAll_fin_later :
    let stream := createEventFrame 0 [116] []
    let ls : List ConnectionLabel := [.arrive stream.length, .epollWait, .dispatch,
      .recv kReadChunk, .recv kReadChunk, .arriveFin, .epollWait, .dispatch]
    ∃ c : Chunking TcpIngestServer.kBufferChunk stream,
      ((connection stream).run (connection stream).start ls).map
        (fun s ↦ (s.worker, s.handed)) = some (.closed, [⟨.batch, [116], []⟩]) ∧
      (connection stream).Along (Connection.DeliversAll c) (connection stream).start ls := by
  intro stream ls
  have hframed : WellFramed kMaxFrameSize kMaxEmptyFrames stream :=
    (drain_ne_none_iff_wellFramed stream).mp (by decide +kernel)
  refine ⟨⟨[stream], by decide, by decide, rfl⟩, by decide +kernel, ?_⟩
  exact (deliversAll_along_iff hframed _ ls).mpr (by decide +kernel)

/-- A client that sends a frame and closes at once: `epoll_wait` reports the data together with
the FIN, and the connection is closed with the frame unread, where the thread-per-client server
delivers it. -/
theorem close_leaves_frame_unread :
    let stream := createEventFrame 0 [116] []
    let ls : List ConnectionLabel := [.arrive stream.length, .arriveFin, .epollWait, .dispatch]
    ∃ c : Chunking TcpIngestServer.kBufferChunk stream,
      WellFramed kMaxFrameSize kMaxEmptyFrames stream ∧
      ((connection stream).run (connection stream).start ls).map
        (fun s ↦ (s.worker, s.handed)) = some (.closed, []) ∧
      TcpIngestServer.handleClient .initial (c.chunks.map .ok) =
        ([⟨.batch, [116], []⟩], false) ∧
      ¬(connection stream).Along (Connection.DeliversAll c) (connection stream).start ls := by
  intro stream ls
  have htcp : TcpIngestServer.handleClient .initial [.ok stream] =
      ([⟨.batch, [116], []⟩], false) := by decide +kernel
  refine ⟨⟨[stream], by decide, by decide, rfl⟩,
    (drain_ne_none_iff_wellFramed stream).mp (by decide +kernel), by decide +kernel, htcp, ?_⟩
  intro hall
  have hrun : (connection stream).run (connection stream).start
      [.arrive stream.length, .arriveFin, .epollWait] =
        some ⟨[], stream, true, false, .reported true true, .initial, []⟩ := by decide +kernel
  have hclose : Connection.DeliversAll _ _ .dispatch := Machine.Along.of_run hall hrun
  have hlast := hclose _ rfl nofun rfl
  rw [List.map_singleton, htcp] at hlast
  cases hlast

end EventStreamCore.Ingest.EpollIngestServer
