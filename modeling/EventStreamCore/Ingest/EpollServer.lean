import EventStreamCore.Ingest.Residual
import EventStreamCore.Lib.Machine
import Mathlib.Algebra.BigOperators.Group.Finset.Basic
import Mathlib.Data.List.AList

/-!
# The threads of the epoll server

`EpollIngestServer`, `src/core/ingest/epoll.cpp:145–373,481–516`: the accept thread, the worker
threads with an epoll descriptor each, the connection table they share, and the kernel's view of
the descriptors, with every system call and every critical section on its own. The kernel gives a
new connection any descriptor that is not open, so numbers are used again; a closed descriptor
leaves the interest lists by itself. Client addresses, log lines and the set-up of `start` are
left out.
-/

namespace EventStreamCore.Ingest.EpollIngestServer
open EventStreamCore.Lib EventStreamCore.Events

/-- A file descriptor. -/
abbrev Fd := Nat

/-- One entry of the array `epoll_wait` fills, with EPOLLERR, EPOLLHUP and EPOLLRDHUP as one. -/
structure EpollEvent where
  fd : Fd
  hangup : Bool
  epollin : Bool
deriving DecidableEq, Repr

/-- Where `acceptConnections` stands: in `accept`, before `setNonBlocking`, before the insertion
into the table, before `epollAdd`, before the counters, on the two steps that give a connection
up, or past the loop; `epoll.cpp:198–253`. -/
inductive AcceptorPc where
  | accepting
  | accepted (fd : Fd)
  | registering (fd : Fd)
  | adding (fd : Fd)
  | counting
  | abandoning (fd : Fd)
  | closing (fd : Fd)
  | exited
deriving DecidableEq, Repr

/-- Where `workerLoop` stands: in `epoll_wait`, before the next reported event, in the loop of
`handleRead`, on one of the four steps of `closeConnection`, or past the loop;
`epoll.cpp:268–311,481–498`. -/
inductive WorkerLoopPc where
  | waiting
  | batch (events : List EpollEvent)
  | reading (fd : Fd) (events : List EpollEvent)
  | unlinking (fd : Fd) (events : List EpollEvent)
  | erasing (fd : Fd) (events : List EpollEvent)
  | closing (fd : Fd) (events : List EpollEvent)
  | counting (events : List EpollEvent)
  | exited
deriving DecidableEq, Repr

/-- `connections_`. -/
abbrev ConnectionTable := AList fun _ : Fd ↦ ConnectionState

/-- The server, the kernel's descriptors with the number of the connection behind each, and the
history of each connection: what `recv` returned and what was handed to the dispatcher. The flag
`fault` records an access that finds a descriptor, an entry or the list of epoll descriptors in a
state it must not be in. -/
structure EpollServer where
  isRunning : Bool
  epollOpen : Bool
  acceptor : AcceptorPc
  nextWorker : Nat
  workers : Nat → WorkerLoopPc
  connections : ConnectionTable
  activeConnections : UInt64
  totalConnectionsAccepted : UInt64
  openFds : Fd → Option Nat
  interest : Nat → Fd → Bool
  arrivals : Nat
  received : Nat → List Bytes
  handed : Nat → List ParsedFrame
  fault : Bool

/-- What a step is: `accept` returns a descriptor, or the accept thread's next operation succeeds
or fails; `epoll_wait` of a worker returns events or an error, its `recv` returns, or it goes on;
`stop` clears the flag, closes the descriptors and clears their list, or, once all threads have
ended, closes the connections that are left. -/
inductive EpollServerLabel where
  | accept (fd : Fd)
  | acceptor (ok : Bool)
  | epollWait (i : Nat) (events : List EpollEvent)
  | epollError (i : Nat)
  | recv (i : Nat) (result : Recv)
  | worker (i : Nat)
  | stop
  | closeEpoll
  | closeAll
deriving DecidableEq

namespace EpollServer

/-- Move a worker. -/
def setWorker (s : EpollServer) (i : Nat) (pc : WorkerLoopPc) : EpollServer :=
  { s with workers := Function.update s.workers i pc }

/-- Record a fault if there is one. -/
def check (s : EpollServer) (ok : Bool) : EpollServer := { s with fault := s.fault || !ok }

/-- `close` of a client descriptor. -/
def closeFd (s : EpollServer) (fd : Fd) : EpollServer :=
  { s.check (s.openFds fd).isSome with
    openFds := Function.update s.openFds fd none
    interest := fun i fd' ↦ s.interest i fd' && fd' != fd }

/-- `connections_.erase`, which both callers do for an entry they have put there. -/
def eraseConnection (s : EpollServer) (fd : Fd) : EpollServer :=
  { s.check (s.connections.lookup fd).isSome with connections := s.connections.erase fd }

/-- `connections_.emplace` of a new state, which leaves an entry alone that is already there. -/
def emplaceConnection (s : EpollServer) (fd : Fd) : EpollServer :=
  { s.check (s.connections.lookup fd).isNone with
    connections := match s.connections.lookup fd with
      | some _ => s.connections
      | none => s.connections.insert fd .initial }

/-- The next operation of the accept thread; `ok` says whether its system call succeeds. -/
def stepAcceptor (numWorkers : Nat) (s : EpollServer) (ok : Bool) : Option EpollServer :=
  match s.acceptor with
  | .accepting => if s.isRunning then some s else some { s with acceptor := .exited }
  | .accepted fd => some { s with acceptor := if ok then .registering fd else .closing fd }
  | .registering fd => some { s.emplaceConnection fd with acceptor := .adding fd }
  | .adding fd =>
    if s.epollOpen then
      if ok then
        some { s with
          interest := Function.update s.interest (s.nextWorker % numWorkers)
            (Function.update (s.interest (s.nextWorker % numWorkers)) fd true)
          acceptor := .counting }
      else some { s with acceptor := .abandoning fd }
    -- `epollFds_` has been cleared under the accept thread
    else some { s.check false with acceptor := .abandoning fd }
  | .counting =>
    some { s with
      nextWorker := (s.nextWorker + 1) % numWorkers
      activeConnections := s.activeConnections + 1
      totalConnectionsAccepted := s.totalConnectionsAccepted + 1
      acceptor := .accepting }
  | .abandoning fd => some { s.eraseConnection fd with acceptor := .closing fd }
  | .closing fd => some { s.closeFd fd with acceptor := .accepting }
  | .exited => none

/-- The next operation of a worker, other than `epoll_wait` and `recv`. -/
def stepWorker (s : EpollServer) (i : Nat) : Option EpollServer :=
  match s.workers i with
  | .waiting => if s.isRunning then some s else some (s.setWorker i .exited)
  | .batch [] => some (s.setWorker i .waiting)
  | .batch (event :: events) =>
    if event.hangup then some (s.setWorker i (.unlinking event.fd events))
    else if event.epollin then
      match s.connections.lookup event.fd with
      | some _ => some (s.setWorker i (.reading event.fd events))
      | none => some ((s.check false).setWorker i (.unlinking event.fd events))
    else some (s.setWorker i (.batch events))
  | .reading _ _ => none
  | .unlinking fd events =>
    some { s.setWorker i (.erasing fd events) with
      interest := Function.update s.interest i (Function.update (s.interest i) fd false) }
  | .erasing fd events => some ((s.eraseConnection fd).setWorker i (.closing fd events))
  | .closing fd events => some ((s.closeFd fd).setWorker i (.counting events))
  | .counting events =>
    some { s.setWorker i (.batch events) with activeConnections := s.activeConnections - 1 }
  | .exited => none

/-- A round of the loop of `handleRead` on the entry it points to. -/
def stepRecv (s : EpollServer) (i : Nat) (result : Recv) : Option EpollServer :=
  match s.workers i with
  | .reading fd events =>
    match result with
    | .ok [] => some (s.setWorker i (.unlinking fd events))
    | .error .wouldBlock => some (s.setWorker i (.batch events))
    | .error .failed => some (s.setWorker i (.unlinking fd events))
    | .ok chunk =>
      match s.connections.lookup fd, s.openFds fd with
      | some state, some k =>
        let (pushed, state') := processBuffer { state with buffer := state.buffer ++ chunk }
        some { s with
          connections := s.connections.insert fd state'
          received := Function.update s.received k (s.received k ++ [chunk])
          handed := Function.update s.handed k (s.handed k ++ pushed) }
      -- a pointer to an entry that is gone, or a descriptor that is not open
      | _, _ => some (s.check false)
  | _ => none

/-- One step of a server with some number of workers. -/
def step (numWorkers : Nat) (s : EpollServer) : EpollServerLabel → Option EpollServer
  | .accept fd =>
    if s.acceptor = .accepting ∧ s.epollOpen ∧ (s.openFds fd).isNone then
      some { s with
        openFds := Function.update s.openFds fd (some s.arrivals)
        arrivals := s.arrivals + 1
        acceptor := .accepted fd }
    else none
  | .acceptor ok => s.stepAcceptor numWorkers ok
  | .epollWait i events =>
    -- a wait under way when its descriptor is closed may still report
    if i < numWorkers ∧ s.workers i = .waiting ∧ (events.map EpollEvent.fd).Nodup ∧
        ∀ event ∈ events, s.interest i event.fd
    then some (s.setWorker i (.batch events)) else none
  | .epollError i =>
    if i < numWorkers ∧ s.workers i = .waiting then some (s.setWorker i .exited) else none
  | .recv i result => if i < numWorkers then s.stepRecv i result else none
  | .worker i => if i < numWorkers then s.stepWorker i else none
  | .stop => some { s with isRunning := false }
  | .closeEpoll => if s.isRunning then none else some { s with epollOpen := false }
  | .closeAll =>
    if s.acceptor = .exited ∧ ∀ i < numWorkers, s.workers i = .exited then
      some { s with
        openFds := fun fd ↦ if fd ∈ s.connections.keys then none else s.openFds fd
        interest := fun i fd ↦ s.interest i fd && fd ∉ s.connections.keys
        connections := ∅ }
    else none

/-- A server that has been started. -/
def initial : EpollServer :=
  ⟨true, true, .accepting, 0, fun _ ↦ .waiting, ∅, 0, 0, fun _ ↦ none, fun _ _ ↦ false, 0,
    fun _ ↦ [], fun _ ↦ [], false⟩

/-- The accept thread has a connection in its hands that it has not given to a worker. -/
def Admitting (s : EpollServer) : Prop :=
  match s.acceptor with
  | .accepted _ | .registering _ | .adding _ => True
  | _ => False

instance (s : EpollServer) : Decidable s.Admitting := by
  unfold Admitting
  cases s.acceptor <;> infer_instance

/-- `stop` does not clear the list of epoll descriptors while the accept thread needs it. -/
def StopsBetweenConnections (s : EpollServer) : EpollServerLabel → Prop
  | .closeEpoll => ¬s.Admitting
  | _ => True

instance (s : EpollServer) (l : EpollServerLabel) : Decidable (s.StopsBetweenConnections l) :=
  match l with
  | .closeEpoll => inferInstanceAs (Decidable (¬s.Admitting))
  | .accept _ | .acceptor _ | .epollWait _ _ | .epollError _ | .recv _ _ | .worker _ | .stop
  | .closeAll => .isTrue trivial

end EpollServer

/-- All interleavings of the threads of a server. -/
def epollServer (numWorkers : Nat) : Machine EpollServer EpollServerLabel where
  start := .initial
  step := EpollServer.step numWorkers

/-! ### Who may touch a descriptor -/

namespace WorkerLoopPc

/-- The descriptors a worker has still to deal with. -/
def touches : WorkerLoopPc → List Fd
  | .waiting => []
  | .batch events => events.map EpollEvent.fd
  | .reading fd events => fd :: events.map EpollEvent.fd
  | .unlinking fd events => fd :: events.map EpollEvent.fd
  | .erasing fd events => fd :: events.map EpollEvent.fd
  | .closing fd events => fd :: events.map EpollEvent.fd
  | .counting events => events.map EpollEvent.fd
  | .exited => []

/-- Those of them that are in the connection table. -/
def listed : WorkerLoopPc → List Fd
  | .closing _ events => events.map EpollEvent.fd
  | pc => pc.touches

/-- The descriptor about to be closed. -/
def closes : WorkerLoopPc → Option Fd
  | .closing fd _ => some fd
  | _ => none

/-- The descriptor that has left the worker's interest list. -/
def unlinked : WorkerLoopPc → Option Fd
  | .erasing fd _ => some fd
  | _ => none

/-- Has the worker erased a connection that it has not yet counted? -/
def uncounted : WorkerLoopPc → Nat
  | .closing _ _ => 1
  | .counting _ => 1
  | _ => 0

theorem mem_touches_of_listed {pc : WorkerLoopPc} {fd : Fd} (h : fd ∈ pc.listed) :
    fd ∈ pc.touches := by
  cases pc with
  | closing fd' events => exact List.mem_cons_of_mem _ h
  | _ => exact h

theorem mem_touches_of_closes {pc : WorkerLoopPc} {fd : Fd} (h : fd ∈ pc.closes) :
    fd ∈ pc.touches := by
  cases pc with
  | closing fd' events =>
    cases h
    exact List.mem_cons_self
  | _ => cases h

/-- Unless it is about to close one, a worker's descriptors are in the table. -/
theorem listed_of_closes {pc : WorkerLoopPc} (h : pc.closes = none) : pc.listed = pc.touches := by
  cases pc with
  | closing fd events => cases h
  | _ => rfl

end WorkerLoopPc

namespace AcceptorPc

/-- The descriptor in the accept thread's hands that is not in the connection table. -/
def unlisted : AcceptorPc → Option Fd
  | .accepted fd => some fd
  | .registering fd => some fd
  | .closing fd => some fd
  | _ => none

/-- The descriptor in the accept thread's hands that is in the connection table. -/
def listed : AcceptorPc → Option Fd
  | .adding fd => some fd
  | .abandoning fd => some fd
  | _ => none

/-- The descriptor nothing has been read from. -/
def fresh : AcceptorPc → Option Fd
  | .accepted fd => some fd
  | .registering fd => some fd
  | _ => none

/-- Has the accept thread entered a connection that it has not yet counted? -/
def uncounted : AcceptorPc → Nat
  | .adding _ => 1
  | .abandoning _ => 1
  | .counting => 1
  | _ => 0

end AcceptorPc

namespace EpollServer

/-- A worker is told of a descriptor, or has been. -/
def Claims (s : EpollServer) (i : Nat) (fd : Fd) : Prop :=
  s.interest i fd = true ∨ fd ∈ (s.workers i).touches

/-- What a worker's own descriptors are like. -/
structure WorkerSound (s : EpollServer) (i : Nat) : Prop where
  nodup : (s.workers i).touches.Nodup
  listed : ∀ fd ∈ (s.workers i).listed, fd ∈ s.connections
  closes : ∀ fd ∈ (s.workers i).closes, fd ∉ s.connections ∧ (s.openFds fd).isSome
  unlinked : ∀ fd ∈ (s.workers i).unlinked, s.interest i fd = false

/-- Every descriptor is in one thread's care: no two workers are told of the same one, none is
told of the one in the hands of the accept thread, every entry of the table is open, and every
open descriptor is in the table or in the hands of the thread that opens or closes it. -/
structure Sound (numWorkers : Nat) (s : EpollServer) : Prop where
  exclusive : ∀ i j fd, s.Claims i fd → s.Claims j fd → i = j
  interest : ∀ i fd, s.interest i fd = true → fd ∈ s.connections
  workers : ∀ i, s.WorkerSound i
  unlisted : ∀ fd ∈ s.acceptor.unlisted,
    (s.openFds fd).isSome ∧ fd ∉ s.connections ∧ ∀ i, ¬s.Claims i fd
  listed : ∀ fd ∈ s.acceptor.listed, fd ∈ s.connections ∧ ∀ i, ¬s.Claims i fd
  opened : ∀ fd ∈ s.connections, (s.openFds fd).isSome
  accounted : ∀ fd, (s.openFds fd).isSome → fd ∈ s.connections ∨ fd ∈ s.acceptor.unlisted ∨
    ∃ i < numWorkers, fd ∈ (s.workers i).closes
  admitting : s.Admitting → s.epollOpen
  idle : ∀ i, numWorkers ≤ i → s.workers i = .waiting
  fault : s.fault = false

end EpollServer
end EventStreamCore.Ingest.EpollIngestServer
