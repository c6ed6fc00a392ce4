import EventStreamCore.Ingest.Epoll

/-!
# What the stream parsers keep between two reads

The accumulation buffers of `TcpIngestServer::handleClient`, `src/core/ingest/tcp.cpp:187–269`,
and `EpollIngestServer::processBuffer`, `src/core/ingest/epoll.cpp:386–475`: after a round they
hold an incomplete header or an incomplete frame whose length is within the limit. The loops of
both advance through the buffer with the same iteration, which is spelled here a second time with
the 32-bit words of the source.
-/

namespace EventStreamCore.Ingest
open EventStreamCore.Lib EventStreamCore.Events

variable {maxFrame maxEmpty : Nat}

/-! ### One iteration -/

/-- An incomplete header, or a header that declares a length within the limit and less than a
frame of that length. -/
def Residual (maxFrame : Nat) (buf : Bytes) : Prop :=
  buf.length < 4 ∨
    (1 ≤ headerAt buf 0 ∧ headerAt buf 0 ≤ maxFrame ∧ buf.length < 4 + headerAt buf 0)

theorem Residual.length_le {buf : Bytes} (h : Residual maxFrame buf) :
    buf.length ≤ maxFrame + 3 := by
  rcases h with hshort | ⟨-, hmax, hlength⟩
  · omega
  · omega

/-- What an iteration waits with is residual. -/
theorem residual_of_wait {buf : Bytes} {count c : Nat}
    (h : frameIteration maxFrame maxEmpty buf 0 count = .wait c) : Residual maxFrame buf := by
  simp only [frameIteration] at h
  split at h
  · next hshort => exact Or.inl hshort
  split at h
  · split at h <;> cases h
  split at h
  · cases h
  split at h
  · next hzero hmax hlength =>
    right
    refine ⟨Nat.one_le_iff_ne_zero.mpr hzero, Nat.le_of_not_lt hmax, ?_⟩
    simpa using hlength
  · cases h

/-- A skipped frame is a whole header. -/
theorem le_of_skip {buf : Bytes} {offset count c : Nat}
    (h : frameIteration maxFrame maxEmpty buf offset count = .skip c) :
    offset + 4 ≤ buf.length := by
  simp only [frameIteration] at h
  split at h
  · cases h
  · omega

/-- An extracted frame lies within the buffer, and its length within the limit. -/
theorem le_of_extract {buf : Bytes} {offset count frameLen : Nat}
    (h : frameIteration maxFrame maxEmpty buf offset count = .extract frameLen) :
    1 ≤ frameLen ∧ frameLen ≤ maxFrame ∧ offset + (4 + frameLen) ≤ buf.length := by
  simp only [frameIteration] at h
  split at h
  · cases h
  split at h
  · split at h <;> cases h
  split at h
  · cases h
  split at h
  · cases h
  · next hzero hmax hlength =>
    cases h
    omega

/-- One iteration of the inner loop that goes on, as a step of the offset and the count of
consecutive empty frames; `tcp.cpp:192–261`, `epoll.cpp:390–466`. -/
inductive Continues (maxFrame maxEmpty : Nat) (buf : Bytes) : Nat × Nat → Nat × Nat → Prop where
  | skip {offset count c : Nat} (hin : offset < buf.length)
      (h : frameIteration maxFrame maxEmpty buf offset count = .skip c) :
      Continues maxFrame maxEmpty buf (offset, count) (offset + 4, c)
  | extract {offset count frameLen : Nat} (hin : offset < buf.length)
      (h : frameIteration maxFrame maxEmpty buf offset count = .extract frameLen) :
      Continues maxFrame maxEmpty buf (offset, count) (offset + (4 + frameLen), 0)

/-- An iteration that goes on advances by a header at least and not past the end. -/
theorem Continues.progress {buf : Bytes} {s s' : Nat × Nat}
    (h : Continues maxFrame maxEmpty buf s s') : s.1 + 4 ≤ s'.1 ∧ s'.1 ≤ buf.length := by
  cases h with
  | skip _ hskip => exact ⟨Nat.le_refl _, le_of_skip hskip⟩
  | extract _ hextract =>
    obtain ⟨-, -, hle⟩ := le_of_extract hextract
    exact ⟨by omega, hle⟩

/-- No buffer keeps the loop going for ever. -/
theorem not_continues_forever (buf : Bytes) :
    ¬ ∃ run : Nat → Nat × Nat, ∀ n, Continues maxFrame maxEmpty buf (run n) (run (n + 1)) := by
  rintro ⟨run, hrun⟩
  have hfar (n : Nat) : 4 * n ≤ (run n).1 := by
    induction n with
    | zero => exact Nat.zero_le _
    | succ n ih =>
      have hstep := (hrun n).progress.1
      omega
  have hend := (hrun buf.length).progress
  have hstart := hfar buf.length
  omega

/-! ### The arithmetic of the source -/

/-- The header as the loops assemble it in 32 bits; `tcp.cpp:196–199`, `epoll.cpp:396–400`. -/
def frameLenAt (buf : Bytes) (offset : Nat) : UInt32 :=
  (buf[offset]?.getD 0).toUInt32 <<< 24 ||| (buf[offset + 1]?.getD 0).toUInt32 <<< 16 |||
    (buf[offset + 2]?.getD 0).toUInt32 <<< 8 ||| (buf[offset + 3]?.getD 0).toUInt32

/-- `frameIteration` with the source's 32-bit comparisons and sum. -/
def frameIteration32 (maxFrame : UInt32) (maxEmpty : Nat) (buf : Bytes)
    (offset emptyFrameCount : Nat) : Iteration :=
  let remaining := buf.length - offset
  if remaining < 4 then .wait emptyFrameCount
  else
    let frameLen := frameLenAt buf offset
    if frameLen = 0 then
      if emptyFrameCount + 1 > maxEmpty then .violation (emptyFrameCount + 1)
      else .skip (emptyFrameCount + 1)
    else if frameLen > maxFrame then .violation 0
    else if remaining < (4 + frameLen).toNat then .wait 0
    else .extract frameLen.toNat

private theorem byte_shift_toNat (b : UInt8) {k : Nat} (hk : k ≤ 24) :
    (b.toUInt32 <<< UInt32.ofNat k).toNat = b.toNat <<< k := by
  have hb := b.toNat_lt
  have hpow : 2 ^ k ≤ 2 ^ 24 := Nat.pow_le_pow_right (by decide) hk
  have hprod : b.toNat * 2 ^ k < 2 ^ 8 * 2 ^ 24 :=
    Nat.mul_lt_mul_of_lt_of_le hb hpow (Nat.two_pow_pos 24)
  have hsize : k < UInt32.size := Nat.lt_of_le_of_lt hk (by decide)
  rw [UInt32.toNat_shiftLeft, UInt8.toNat_toUInt32, UInt32.toNat_ofNat_of_lt' hsize,
    Nat.mod_eq_of_lt (show k < 32 by omega), Nat.shiftLeft_eq]
  exact Nat.mod_eq_of_lt hprod

/-- Assembling the header loses no bits. -/
theorem frameLenAt_toNat (buf : Bytes) (offset : Nat) :
    (frameLenAt buf offset).toNat = headerAt buf offset := by
  have h24 (b : UInt8) := byte_shift_toNat b (k := 24) (by decide)
  have h16 (b : UInt8) := byte_shift_toNat b (k := 16) (by decide)
  have h8 (b : UInt8) := byte_shift_toNat b (k := 8) (by decide)
  rw [frameLenAt, headerAt, UInt32.toNat_or, UInt32.toNat_or, UInt32.toNat_or,
    UInt8.toNat_toUInt32, ← h24, ← h16, ← h8]
  rfl

/-- With a limit that leaves room for the header, no sum wraps around. -/
theorem four_add_toNat {maxFrame : UInt32} (hroom : maxFrame.toNat + 4 < 2 ^ 32)
    {frameLen : UInt32} (h : frameLen ≤ maxFrame) : (4 + frameLen).toNat = 4 + frameLen.toNat := by
  have hle := UInt32.le_iff_toNat_le.mp h
  rw [UInt32.toNat_add]
  exact Nat.mod_eq_of_lt (by change 4 + frameLen.toNat < 2 ^ 32; omega)

/-- The iteration of the source computes what it does on unbounded numbers. -/
theorem frameIteration32_eq {maxFrame : UInt32} (hroom : maxFrame.toNat + 4 < 2 ^ 32)
    (buf : Bytes) (offset count : Nat) :
    frameIteration32 maxFrame maxEmpty buf offset count =
      frameIteration maxFrame.toNat maxEmpty buf offset count := by
  have hword := frameLenAt_toNat buf offset
  have hzero : frameLenAt buf offset = 0 ↔ headerAt buf offset = 0 := by
    rw [← hword, ← UInt32.toNat_inj, UInt32.toNat_zero]
  have hgt : frameLenAt buf offset > maxFrame ↔ headerAt buf offset > maxFrame.toNat := by
    rw [← hword, gt_iff_lt, gt_iff_lt, UInt32.lt_iff_toNat_lt]
  simp only [frameIteration32, frameIteration, hzero, hgt]
  by_cases hmax : headerAt buf offset > maxFrame.toNat
  · simp only [hmax, if_true]
  · have hsum := four_add_toNat hroom (UInt32.not_lt.mp (mt hgt.mp hmax))
    rw [hword] at hsum
    simp only [hmax, if_false, hsum, hword]

/-! ### One round -/

private theorem residual_of_need {r t : Nat} {rest : Bytes}
    (h : frameLook maxFrame maxEmpty r rest = .need t) : Residual maxFrame rest := by
  unfold frameLook at h
  split at h
  · next hwait => exact residual_of_wait hwait
  · cases h
  · cases h
  · cases h

/-- What a drain leaves is residual. -/
theorem residual_of_drain {count c : Nat} {buf rest : Bytes}
    (h : (TcpIngestServer.framer.drain count buf).2 = some (c, rest)) :
    Residual TcpIngestServer.kMaxBufferSize rest := by
  have hdrain : TcpIngestServer.framer.drain count buf =
      ((TcpIngestServer.framer.drain count buf).1, some (c, rest)) := Prod.ext rfl h
  obtain ⟨r, hneed⟩ := Framer.drain_rest_needs TcpIngestServer.framer hdrain
  exact residual_of_need hneed

namespace TcpIngestServer

/-- A turn of the loop ends it where it stands, or is an iteration that goes on. -/
theorem parseLoop_stops_or_continues (buf : Bytes) (s : Nat × Nat) :
    ((parseLoop buf s.1 s.2).2 = none ∨ ∃ c, (parseLoop buf s.1 s.2).2 = some (s.1, c)) ∨
      ∃ s', Continues kMaxBufferSize maxEmptyFrames buf s s' ∧
        (parseLoop buf s.1 s.2).2 = (parseLoop buf s'.1 s'.2).2 := by
  by_cases hin : s.1 < buf.length
  · rw [parseLoop, if_pos hin]
    cases hiter : frameIteration kMaxBufferSize maxEmptyFrames buf s.1 s.2 with
    | wait c => exact Or.inl (Or.inr ⟨c, rfl⟩)
    | violation c => exact Or.inl (Or.inl rfl)
    | skip c => exact Or.inr ⟨_, .skip hin hiter, rfl⟩
    | extract frameLen => exact Or.inr ⟨_, .extract hin hiter, rfl⟩
  · rw [parseLoop, if_neg hin]
    exact Or.inl (Or.inr ⟨s.2, rfl⟩)

/-- A round that keeps the connection leaves a residual buffer. -/
theorem parseRound_residual {st st' : ClientState} {chunk : Bytes}
    (h : (parseRound st chunk).2 = some st') : Residual kMaxBufferSize st'.clientBuffer := by
  rw [parseRound_eq_drain] at h
  obtain ⟨r, hdrain, rfl⟩ := Option.map_eq_some_iff.mp h
  exact residual_of_drain hdrain

/-- The state after rounds on these chunks, unless one of them closed the connection. -/
def clientAfter (st : ClientState) : List Bytes → Option ClientState
  | [] => some st
  | chunk :: chunks => (parseRound st chunk).2.bind fun st' ↦ clientAfter st' chunks

/-- `handleClient` goes through the states after each round. -/
theorem handleClient_append {chunks : List Bytes} (hne : ∀ c ∈ chunks, c ≠ [])
    (st : ClientState) (recvs : List Recv) :
    (handleClient st (chunks.map .ok ++ recvs)).2 =
      match clientAfter st chunks with
      | none => true
      | some st' => (handleClient st' recvs).2 := by
  induction chunks generalizing st with
  | nil => rfl
  | cons chunk chunks ih =>
    obtain ⟨b, bs, rfl⟩ := List.exists_cons_of_ne_nil (hne chunk List.mem_cons_self)
    rw [List.map_cons, List.cons_append, handleClient, clientAfter]
    cases hround : parseRound st (b :: bs) with
    | mk pushed result =>
      cases result with
      | none => rfl
      | some st' => exact ih (fun c hc ↦ hne c (List.mem_cons_of_mem _ hc)) st'

theorem clientAfter_residual {chunks : List Bytes} {st st' : ClientState}
    (hst : Residual kMaxBufferSize st.clientBuffer) (h : clientAfter st chunks = some st') :
    Residual kMaxBufferSize st'.clientBuffer := by
  induction chunks generalizing st with
  | nil =>
    rw [clientAfter] at h
    cases h
    exact hst
  | cons chunk chunks ih =>
    rw [clientAfter] at h
    obtain ⟨next, hround, hrest⟩ := Option.bind_eq_some_iff.mp h
    exact ih (parseRound_residual hround) hrest

end TcpIngestServer

namespace EpollIngestServer

/-- A turn of the loop ends it where it stands, or is an iteration that goes on. -/
theorem processLoop_stops_or_continues (buf : Bytes) (s : Nat × Nat) :
    (∃ c, (processLoop buf s.1 s.2).2 = .guarded c ∨
        (processLoop buf s.1 s.2).2 = .compactFrom s.1 c) ∨
      ∃ s', Continues kMaxFrameSize kMaxEmptyFrames buf s s' ∧
        (processLoop buf s.1 s.2).2 = (processLoop buf s'.1 s'.2).2 := by
  by_cases hin : s.1 < buf.length
  · rw [processLoop, if_pos hin]
    cases hiter : frameIteration kMaxFrameSize kMaxEmptyFrames buf s.1 s.2 with
    | wait c => exact Or.inl ⟨c, Or.inr rfl⟩
    | violation c => exact Or.inl ⟨c, Or.inl rfl⟩
    | skip c => exact Or.inr ⟨_, .skip hin hiter, rfl⟩
    | extract frameLen => exact Or.inr ⟨_, .extract hin hiter, rfl⟩
  · rw [processLoop, if_neg hin]
    exact Or.inl ⟨s.2, Or.inr rfl⟩

private theorem processBuffer_of_halt {state : ConnectionState}
    (h : (TcpIngestServer.framer.drain state.emptyFrameCount state.buffer).2 = none) :
    (processBuffer state).2.buffer = [] := by
  have hloop := (processLoop_eq_parseLoop state.buffer 0 state.emptyFrameCount).2
  have hdrain := (TcpIngestServer.parseLoop_eq_drain state.buffer 0 state.emptyFrameCount).2
  rw [← hloop, List.drop_zero, h, Option.map_eq_none_iff] at hdrain
  unfold processBuffer
  cases hexit : processLoop state.buffer 0 state.emptyFrameCount with
  | mk pushed exit =>
    rw [hexit] at hdrain
    cases exit with
    | guarded count => rfl
    | compactFrom offset count => cases hdrain

/-- `processBuffer` leaves a residual buffer, an empty one after a guard. -/
theorem processBuffer_residual (state : ConnectionState) :
    Residual kMaxFrameSize (processBuffer state).2.buffer := by
  cases hdrain : (TcpIngestServer.framer.drain state.emptyFrameCount state.buffer).2 with
  | none =>
    rw [processBuffer_of_halt hdrain]
    exact Or.inl (by decide)
  | some r =>
    have hall : TcpIngestServer.framer.drain state.emptyFrameCount state.buffer =
        ((TcpIngestServer.framer.drain state.emptyFrameCount state.buffer).1, some (r.1, r.2)) :=
      Prod.ext rfl hdrain
    rw [processBuffer_of_drain state hall]
    exact residual_of_drain hdrain

/-- The connection after rounds on these chunks. -/
def connectionAfter (state : ConnectionState) (chunks : List Bytes) : ConnectionState :=
  chunks.foldl
    (fun state chunk ↦ (processBuffer { state with buffer := state.buffer ++ chunk }).2) state

/-- `handleRead` goes through the states after each round. -/
theorem handleRead_append {chunks : List Bytes} (hne : ∀ c ∈ chunks, c ≠ [])
    (state : ConnectionState) (recvs : List Recv) :
    (handleRead state (chunks.map .ok ++ recvs)).2 =
      (handleRead (connectionAfter state chunks) recvs).2 := by
  induction chunks generalizing state with
  | nil => rfl
  | cons chunk chunks ih =>
    rw [List.map_cons, List.cons_append, handleRead_data state (hne _ List.mem_cons_self)]
    exact ih (fun c hc ↦ hne c (List.mem_cons_of_mem _ hc)) _

theorem connectionAfter_residual (chunks : List Bytes) {state : ConnectionState}
    (hstate : Residual kMaxFrameSize state.buffer) :
    Residual kMaxFrameSize (connectionAfter state chunks).buffer := by
  induction chunks generalizing state with
  | nil => exact hstate
  | cons chunk chunks ih => exact ih (processBuffer_residual _)

end EpollIngestServer

/-! ### Every sequence of chunks -/

/-- After every sequence of chunks the buffer of an open connection holds less than a header or
less than the frame its header declares, within the limit of 10 MiB; so it never holds more than
10485763 bytes. A turn of either loop ends it or advances by at least 4 within the buffer, and
not for ever; the bytes of a header are in the buffer, and the 32-bit arithmetic does not wrap
around. -/
theorem parsers_keep_residual (chunks : List Bytes) :
    (∀ st, TcpIngestServer.clientAfter .initial chunks = some st →
      Residual 10485760 st.clientBuffer ∧ st.clientBuffer.length ≤ 10485763) ∧
    (Residual 10485760 (EpollIngestServer.connectionAfter .initial chunks).buffer ∧
      (EpollIngestServer.connectionAfter .initial chunks).buffer.length ≤ 10485763) ∧
    ∀ buf,
      (∀ s,
        ((TcpIngestServer.parseLoop buf s.1 s.2).2 = none ∨
          ∃ c, (TcpIngestServer.parseLoop buf s.1 s.2).2 = some (s.1, c)) ∨
        ∃ s', Continues 10485760 10 buf s s' ∧
          (TcpIngestServer.parseLoop buf s.1 s.2).2 =
            (TcpIngestServer.parseLoop buf s'.1 s'.2).2) ∧
      (∀ s,
        (∃ c, (EpollIngestServer.processLoop buf s.1 s.2).2 = .guarded c ∨
          (EpollIngestServer.processLoop buf s.1 s.2).2 = .compactFrom s.1 c) ∨
        ∃ s', Continues 10485760 10 buf s s' ∧
          (EpollIngestServer.processLoop buf s.1 s.2).2 =
            (EpollIngestServer.processLoop buf s'.1 s'.2).2) ∧
      (∀ s s', Continues 10485760 10 buf s s' → s.1 + 4 ≤ s'.1 ∧ s'.1 ≤ buf.length) ∧
      (¬ ∃ run : Nat → Nat × Nat, ∀ n, Continues 10485760 10 buf (run n) (run (n + 1))) ∧
      ∀ offset, (¬ buf.length - offset < 4 → offset + 3 < buf.length) ∧
        (frameLenAt buf offset).toNat = headerAt buf offset ∧
        (frameLenAt buf offset ≤ 10485760 →
          (4 + frameLenAt buf offset).toNat = 4 + headerAt buf offset) ∧
        ∀ count, frameIteration32 10485760 10 buf offset count =
          frameIteration 10485760 10 buf offset count := by
  have hempty : Residual 10485760 [] := Or.inl (by decide)
  have hroom : (10485760 : UInt32).toNat + 4 < 2 ^ 32 := by decide
  have hepoll : Residual 10485760 (EpollIngestServer.connectionAfter .initial chunks).buffer := by
    apply EpollIngestServer.connectionAfter_residual
    exact hempty
  refine ⟨?tcp, ⟨hepoll, hepoll.length_le⟩, ?loop⟩
  case tcp =>
    intro st hst
    have htcp : Residual 10485760 st.clientBuffer := by
      apply TcpIngestServer.clientAfter_residual _ hst
      exact hempty
    exact ⟨htcp, htcp.length_le⟩
  case loop =>
    intro buf
    refine ⟨TcpIngestServer.parseLoop_stops_or_continues buf,
      EpollIngestServer.processLoop_stops_or_continues buf, fun s s' h ↦ h.progress,
      not_continues_forever buf, fun offset ↦ ⟨?_, ?_, ?_, ?_⟩⟩
    · intro hheader
      omega
    · exact frameLenAt_toNat buf offset
    · intro hle
      rw [four_add_toNat hroom hle, frameLenAt_toNat]
    · exact frameIteration32_eq hroom buf offset

end EventStreamCore.Ingest
