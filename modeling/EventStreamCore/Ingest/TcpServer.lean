import EventStreamCore.Ingest.Residual
import EventStreamCore.Lib.Machine
import Mathlib.Logic.Function.Basic

/-!
# The threads of the thread-per-client server

`TcpIngestServer`, `src/core/ingest/tcp.cpp:72–172`: the accept thread with its cleanup every ten
connections, a thread for each client, and `stop`. `clientThreadsMutex_` is left out: `stop` takes
it only once the accept thread has been joined, so it never has to wait. The set-up of `start`,
addresses and log lines are left out too, and a client thread runs as soon as it is made.
-/

namespace EventStreamCore.Ingest.TcpIngestServer
open EventStreamCore.Lib EventStreamCore.Events

/-- `kCleanupInterval`; `tcp.cpp:126`. -/
def kCleanupInterval : Nat := 10

/-- Where the thread of a client stands: before `activeConnections_` is raised, in the loop of
`handleClient`, before `closeSocket`, before the counter is lowered, before the store to
`finished`, before its end, or behind it; `tcp.cpp:147–156`. -/
inductive ClientPc where
  | starting
  | handling
  | closing
  | uncounting
  | finishing
  | returning
  | returned
deriving DecidableEq, Repr

/-- `ClientThread`, `tcp.hpp:41–44`, with the place of its thread, the locals of `handleClient`,
what the thread has read and handed over, and whether the object is gone. -/
structure ClientThread where
  pc : ClientPc
  finished : Bool
  joinable : Bool
  destroyed : Bool
  state : ClientState
  received : List Bytes
  handed : List ParsedFrame
deriving DecidableEq, Repr

/-- A thread that has been made. -/
def ClientThread.initial : ClientThread := ⟨.starting, false, true, false, .initial, [], []⟩

/-- Where a thread stands and what it has handed over. -/
def ClientThread.place (c : ClientThread) : ClientPc × List ParsedFrame := (c.pc, c.handed)

/-- Where `acceptConnections` stands: in the test of its loop or in `accept`, before `push_back`,
before the counters, at an entry of `cleanupFinishedThreads`, in a `join` there, or past the loop;
`tcp.cpp:108–172`. -/
inductive AcceptThreadPc where
  | accepting
  | created (client : Nat)
  | counting
  | cleaning (rest : List Nat)
  | joining (client : Nat) (rest : List Nat)
  | exited
deriving DecidableEq, Repr

/-- Where `stop` stands; `tcp.cpp:72–106`. -/
inductive StopPc where
  | notCalled
  | closingServer
  | joiningAcceptThread
  | joiningClients (rest : List Nat)
  | clearing
  | returned
deriving DecidableEq, Repr

/-- The server. Clients are numbered as they are accepted. `served` and `stale` are history: how
many entries had not finished when the last cleanup began, and which clients had. The flag `fault`
records a thread object destroyed before it was joined, or a store to an object that is gone. -/
structure TcpServer where
  isRunning : Bool
  serverOpen : Bool
  acceptThread : AcceptThreadPc
  stop : StopPc
  connectionsSinceCleanup : Nat
  accepted : Nat
  clients : Nat → ClientThread
  clientThreads : List Nat
  activeConnections : UInt64
  totalConnectionsAccepted : UInt64
  served : Nat
  stale : Nat → Bool
  fault : Bool

/-- What a step is: `accept` returns a connection, the accept thread goes on, a client's `recv`
returns, a client goes on, `stop` is called, or it goes on. -/
inductive TcpServerLabel where
  | accept
  | acceptThread
  | recv (client : Nat) (result : Recv)
  | client (client : Nat)
  | callStop
  | stop
deriving DecidableEq

namespace TcpServer

/-- Replace what is known of a client. -/
def setClient (s : TcpServer) (k : Nat) (c : ClientThread) : TcpServer :=
  { s with clients := Function.update s.clients k c }

@[simp] theorem clients_setClient (s : TcpServer) (k : Nat) (c : ClientThread) :
    (s.setClient k c).clients k = c := by
  simp [setClient]

theorem clients_setClient_of_ne (s : TcpServer) {j k : Nat} (h : j ≠ k) (c : ClientThread) :
    (s.setClient k c).clients j = s.clients j := by
  simp [setClient, h]

/-- Record a fault if there is one. -/
def check (s : TcpServer) (ok : Bool) : TcpServer := { s with fault := s.fault || !ok }

/-- `join` has returned. -/
def joined (s : TcpServer) (k : Nat) : TcpServer :=
  s.setClient k { s.clients k with joinable := false }

/-- `clientThreads_.erase`, with the destructor of the object. -/
def erase (s : TcpServer) (k : Nat) : TcpServer :=
  { (s.check !(s.clients k).joinable).setClient k { s.clients k with destroyed := true } with
    clientThreads := s.clientThreads.erase k }

/-- The next operation of the accept thread, other than an `accept` that returns a connection. -/
def stepAcceptThread (s : TcpServer) : Option TcpServer :=
  match s.acceptThread with
  | .accepting => if s.isRunning then some s else some { s with acceptThread := .exited }
  | .created k =>
    some { s with clientThreads := s.clientThreads ++ [k], acceptThread := .counting }
  | .counting =>
    let s := { s with
      totalConnectionsAccepted := s.totalConnectionsAccepted + 1
      connectionsSinceCleanup := s.connectionsSinceCleanup + 1 }
    if s.connectionsSinceCleanup ≥ kCleanupInterval then
      some { s with
        acceptThread := .cleaning s.clientThreads
        served := s.clientThreads.countP fun k ↦ !(s.clients k).finished
        stale := fun k ↦ (s.clients k).finished }
    else some { s with acceptThread := .accepting }
  | .cleaning [] => some { s with connectionsSinceCleanup := 0, acceptThread := .accepting }
  | .cleaning (k :: rest) =>
    if (s.clients k).finished then
      if (s.clients k).joinable then some { s with acceptThread := .joining k rest }
      else some { s.erase k with acceptThread := .cleaning rest }
    else some { s with acceptThread := .cleaning rest }
  | .joining k rest =>
    if (s.clients k).pc = .returned then
      some { (s.joined k).erase k with acceptThread := .cleaning rest }
    else none
  | .exited => none

/-- The next operation of the thread of a client, other than a `recv` that returns. -/
def stepClient (s : TcpServer) (k : Nat) : Option TcpServer :=
  let c := s.clients k
  match c.pc with
  | .starting =>
    some { s.setClient k { c with pc := .handling } with
      activeConnections := s.activeConnections + 1 }
  | .handling => if s.isRunning then none else some (s.setClient k { c with pc := .closing })
  | .closing => some (s.setClient k { c with pc := .uncounting })
  | .uncounting =>
    some { s.setClient k { c with pc := .finishing } with
      activeConnections := s.activeConnections - 1 }
  | .finishing =>
    some ((s.check !c.destroyed).setClient k { c with finished := true, pc := .returning })
  | .returning => some (s.setClient k { c with pc := .returned })
  | .returned => none

/-- What `handleClient` does with a `recv`. -/
def afterRecv (c : ClientThread) : Recv → ClientThread
  | .error _ => { c with pc := .closing }
  | .ok [] => { c with pc := .closing }
  | .ok (b :: bs) =>
    match parseRound c.state (b :: bs) with
    | (pushed, none) =>
      { c with pc := .closing, received := c.received ++ [b :: bs], handed := c.handed ++ pushed }
    | (pushed, some state) =>
      { c with
        state := state
        received := c.received ++ [b :: bs]
        handed := c.handed ++ pushed }

/-- The next operation of `stop`. -/
def stepStop (s : TcpServer) : Option TcpServer :=
  match s.stop with
  | .notCalled => none
  | .closingServer => some { s with serverOpen := false, stop := .joiningAcceptThread }
  | .joiningAcceptThread =>
    if s.acceptThread = .exited then some { s with stop := .joiningClients s.clientThreads }
    else none
  | .joiningClients [] => some { s with stop := .clearing }
  | .joiningClients (k :: rest) =>
    if (s.clients k).joinable then
      if (s.clients k).pc = .returned then
        some { s.joined k with stop := .joiningClients rest }
      else none
    else some { s with stop := .joiningClients rest }
  | .clearing =>
    some { s.check (s.clientThreads.all fun k ↦ !(s.clients k).joinable) with
      clients := fun k ↦
        if k ∈ s.clientThreads then { s.clients k with destroyed := true } else s.clients k
      clientThreads := []
      stop := .returned }
  | .returned => none

/-- One step of the server. -/
def step (s : TcpServer) : TcpServerLabel → Option TcpServer
  | .accept =>
    if s.acceptThread = .accepting ∧ s.serverOpen then
      some { s with accepted := s.accepted + 1, acceptThread := .created s.accepted }
    else none
  | .acceptThread => s.stepAcceptThread
  | .recv k result =>
    if k < s.accepted ∧ (s.clients k).pc = .handling then
      some (s.setClient k (afterRecv (s.clients k) result))
    else none
  | .client k => if k < s.accepted then s.stepClient k else none
  | .callStop =>
    if s.stop = .notCalled ∨ s.stop = .returned then
      some { s with isRunning := false, stop := .closingServer }
    else none
  | .stop => s.stepStop

/-- A server that has been started; `clients` holds what each thread will start from. -/
def initial : TcpServer :=
  ⟨true, true, .accepting, .notCalled, 0, 0, fun _ ↦ .initial, [], 0, 0, 0, fun _ ↦ false, false⟩

end TcpServer

/-- All interleavings of the threads of a server. -/
def tcpServer : Machine TcpServer TcpServerLabel where
  start := .initial
  step := TcpServer.step

/-! ### One client -/

theorem clientAfter_concat (st : ClientState) (chunks : List Bytes) (chunk : Bytes) :
    clientAfter st (chunks ++ [chunk]) =
      (clientAfter st chunks).bind fun st' ↦ (parseRound st' chunk).2 := by
  induction chunks generalizing st with
  | nil =>
    rw [List.nil_append, clientAfter, clientAfter, Option.bind_some]
    cases (parseRound st chunk).2 with
    | none => rfl
    | some st' => rfl
  | cons c chunks ih =>
    rw [List.cons_append, clientAfter, clientAfter]
    cases (parseRound st c).2 with
    | none => rfl
    | some st' => exact ih st'

/-- What `handleClient` hands over at the last of some chunks. -/
theorem handleClient_concat {chunks : List Bytes} (hne : ∀ c ∈ chunks, c ≠ []) {chunk : Bytes}
    (hchunk : chunk ≠ []) {st st' : ClientState} (h : clientAfter st chunks = some st') :
    (handleClient st ((chunks ++ [chunk]).map .ok)).1 =
      (handleClient st (chunks.map .ok)).1 ++ (parseRound st' chunk).1 := by
  induction chunks generalizing st with
  | nil =>
    rw [clientAfter] at h
    cases h
    obtain ⟨b, bs, rfl⟩ := List.exists_cons_of_ne_nil hchunk
    simp only [List.nil_append, List.map_cons, List.map_nil, handleClient]
    cases hround : parseRound st' (b :: bs) with
    | mk pushed result =>
      cases result with
      | none => rfl
      | some next => exact List.append_nil pushed
  | cons c chunks ih =>
    obtain ⟨b, bs, rfl⟩ := List.exists_cons_of_ne_nil (hne c List.mem_cons_self)
    have hrest : ∀ c' ∈ chunks, c' ≠ [] := fun c' hc ↦ hne c' (List.mem_cons_of_mem _ hc)
    rw [clientAfter] at h
    obtain ⟨next, hround, hnext⟩ := Option.bind_eq_some_iff.mp h
    simp only [List.cons_append, List.map_cons, handleClient]
    cases hparse : parseRound st (b :: bs) with
    | mk pushed result =>
      rw [hparse] at hround
      cases hround
      simp only [ih hrest hnext, List.append_assoc]

namespace ClientThread

/-- What the thread of a client and its object agree on: the flag is set when nothing is left but
to return, only a thread that has returned is joined, only a joined one destroyed, and what has
been handed over is what `handleClient` makes of the bytes read. -/
structure Ok (c : ClientThread) : Prop where
  finished : c.finished = true ↔ c.pc = .returning ∨ c.pc = .returned
  joined : c.joinable = false → c.pc = .returned
  destroyed : c.destroyed = true → c.joinable = false
  nonempty : ∀ chunk ∈ c.received, chunk ≠ []
  handed : c.handed = (handleClient .initial (c.received.map .ok)).1
  state : c.pc = .starting ∨ c.pc = .handling → clientAfter .initial c.received = some c.state

theorem Ok.initial : ClientThread.initial.Ok where
  finished := by simp [ClientThread.initial]
  joined := by simp [ClientThread.initial]
  destroyed := by simp [ClientThread.initial]
  nonempty _ h := absurd h List.not_mem_nil
  handed := rfl
  state _ := rfl

/-- One for a client between the two accesses of its thread to the counter. -/
def counted (c : ClientThread) : Nat :=
  match c.pc with
  | .handling | .closing | .uncounting => 1
  | _ => 0

/-- A thread that goes on short of its last store. -/
theorem Ok.goOn {c : ClientThread} (h : c.Ok) (pc : ClientPc) (hlive : c.finished = false)
    (hpc : pc ≠ .returning ∧ pc ≠ .returned) (hstate : pc = .handling → c.pc = .starting)
    (hstart : pc ≠ .starting) : { c with pc := pc }.Ok where
  finished := by simp [hlive, hpc]
  joined hjoined := by
    have hfinished := h.finished.mpr (.inr (h.joined hjoined))
    simp [hlive] at hfinished
  destroyed := h.destroyed
  nonempty := h.nonempty
  handed := h.handed
  state hin := h.state (.inl (hstate (hin.resolve_left hstart)))

theorem live_of_pc {c : ClientThread} (h : c.Ok)
    (hpc : c.pc ≠ .returning ∧ c.pc ≠ .returned) : c.finished = false := by
  rw [← Bool.not_eq_true, h.finished]
  rintro (hreturning | hreturned)
  · exact hpc.1 hreturning
  · exact hpc.2 hreturned

theorem ok_afterRecv {c : ClientThread} (h : c.Ok) (hpc : c.pc = .handling)
    (result : Recv) : (TcpServer.afterRecv c result).Ok := by
  have hlive : c.finished = false := live_of_pc h (by simp [hpc])
  have hclosing : { c with pc := .closing }.Ok :=
    h.goOn .closing hlive (by decide) (fun hpc' ↦ by cases hpc') (by decide)
  have hjoinable : c.joinable = true := by
    rw [← Bool.not_eq_false]
    intro hjoined
    have := h.joined hjoined
    rw [hpc] at this
    cases this
  cases result with
  | error e => exact hclosing
  | ok chunk =>
    cases chunk with
    | nil => exact hclosing
    | cons b bs =>
      have hafter := h.state (.inr hpc)
      have hne : ∀ chunk ∈ c.received ++ [b :: bs], chunk ≠ [] := by
        intro chunk hchunk
        rcases List.mem_append.mp hchunk with hold | hnew
        · exact h.nonempty chunk hold
        · rw [List.mem_singleton.mp hnew]
          exact List.cons_ne_nil b bs
      have hhanded := handleClient_concat h.nonempty (List.cons_ne_nil b bs) hafter
      have hconcat := clientAfter_concat .initial c.received (b :: bs)
      rw [hafter, Option.bind_some] at hconcat
      rw [TcpServer.afterRecv]
      cases hround : parseRound c.state (b :: bs) with
      | mk pushed next =>
        rw [hround] at hhanded hconcat
        cases next with
        | none =>
          exact ⟨by simp [hlive], by simp [hjoinable], h.destroyed, hne,
            by rw [hhanded, ← h.handed], by simp⟩
        | some state =>
          exact ⟨by simp [hlive, hpc], by simp [hjoinable], h.destroyed, hne,
            by rw [hhanded, ← h.handed], fun _ ↦ hconcat⟩

end ClientThread

end EventStreamCore.Ingest.TcpIngestServer
