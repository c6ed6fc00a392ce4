import EventStreamCore.Ingest.TcpServer

/-!
# Who has the thread object of a client

Every object is in the hands of the accept thread, in `clientThreads_` or gone: the invariant of
the threads of `TcpIngestServer`, `src/core/ingest/tcp.cpp:72–172`, and what a turn of a client's
thread, of the accept thread and of `stop` leaves of it when it moves no object.
-/

namespace EventStreamCore.Ingest.TcpIngestServer
open EventStreamCore.Lib EventStreamCore.Events

namespace AcceptThreadPc

/-- The client whose object the accept thread has not put into the list yet. -/
def holds : AcceptThreadPc → Option Nat
  | .created k => some k
  | _ => none

/-- The entries a cleanup has still to look at. -/
def ahead : AcceptThreadPc → List Nat
  | .cleaning rest => rest
  | .joining k rest => k :: rest
  | _ => []

/-- The client a cleanup waits for. -/
def waitsFor : AcceptThreadPc → Option Nat
  | .joining k _ => some k
  | _ => none

/-- Has a connection been accepted that is not in the statistics yet? -/
def uncounted : AcceptThreadPc → Nat
  | .created _ => 1
  | .counting => 1
  | _ => 0

end AcceptThreadPc

namespace StopPc

/-- The accept thread has been joined. -/
def pastAcceptThread : StopPc → Bool
  | .joiningClients _ => true
  | .clearing => true
  | .returned => true
  | _ => false

/-- The entries `stop` has still to join. -/
def ahead : StopPc → List Nat
  | .joiningClients rest => rest
  | _ => []

/-- `stop` has been through this entry with its joins. -/
def passed : StopPc → Nat → Prop
  | .joiningClients rest, k => k ∉ rest
  | .clearing, _ => True
  | _, _ => False

theorem not_mem_ahead {pc : StopPc} {k : Nat} (h : pc.pastAcceptThread = false) :
    k ∉ pc.ahead := by
  cases pc with
  | joiningClients rest => cases h
  | _ => exact List.not_mem_nil

theorem not_passed {pc : StopPc} {k : Nat} (h : pc.pastAcceptThread = false) : ¬pc.passed k := by
  cases pc with
  | joiningClients rest => cases h
  | clearing => cases h
  | _ => exact id

end StopPc

namespace TcpServer

/-- Every client's object is in one place: in the hands of the accept thread, in the list, or gone.
A cleanup waits only for a thread whose flag is set, and behind `stop` in the list every thread has
been joined. -/
structure Custody (s : TcpServer) : Prop where
  clients : ∀ k, (s.clients k).Ok
  unborn : ∀ k, s.accepted ≤ k → s.clients k = .initial
  nodup : s.clientThreads.Nodup
  listed : ∀ k ∈ s.clientThreads, k < s.accepted ∧ (s.clients k).destroyed = false
  held : ∀ k ∈ s.acceptThread.holds,
    k < s.accepted ∧ k ∉ s.clientThreads ∧ (s.clients k).destroyed = false ∧
      (s.clients k).joinable = true
  somewhere : ∀ k < s.accepted,
    (s.clients k).destroyed = true ∨ k ∈ s.clientThreads ∨ k ∈ s.acceptThread.holds
  ahead : s.acceptThread.ahead.Nodup ∧ ∀ k ∈ s.acceptThread.ahead, k ∈ s.clientThreads
  waits : ∀ k ∈ s.acceptThread.waitsFor, (s.clients k).finished = true
  aheadOfStop : ∀ k ∈ s.stop.ahead, k ∈ s.clientThreads
  passed : ∀ k ∈ s.clientThreads, s.stop.passed k → (s.clients k).joinable = false
  stopping : s.stop.pastAcceptThread = true → s.acceptThread = .exited
  emptied : s.stop = .returned → s.clientThreads = []
  fault : s.fault = false

variable {s t : TcpServer}

/-- A step of the thread of a client. -/
structure ClientMoves (s : TcpServer) (k : Nat) (t : TcpServer) : Prop where
  born : k < s.accepted
  client : (t.clients k).Ok ∧ (t.clients k).joinable = (s.clients k).joinable ∧
    (t.clients k).destroyed = (s.clients k).destroyed ∧
    ((s.clients k).finished = true → (t.clients k).finished = true)
  others : ∀ j, j ≠ k → t.clients j = s.clients j
  accepted : t.accepted = s.accepted
  acceptThread : t.acceptThread = s.acceptThread
  stop : t.stop = s.stop
  clientThreads : t.clientThreads = s.clientThreads
  fault : t.fault = false

theorem Custody.of_clientMoves {k : Nat} (h : s.Custody) (hm : s.ClientMoves k t) :
    t.Custody := by
  obtain ⟨hok, hjoinable, hdestroyed, hfinished⟩ := hm.client
  have hsameJoinable : ∀ j, (t.clients j).joinable = (s.clients j).joinable := by
    intro j
    by_cases hj : j = k
    · rw [hj, hjoinable]
    · rw [hm.others j hj]
  have hsameDestroyed : ∀ j, (t.clients j).destroyed = (s.clients j).destroyed := by
    intro j
    by_cases hj : j = k
    · rw [hj, hdestroyed]
    · rw [hm.others j hj]
  refine ⟨?_, ?_, ?_, ?_, ?_, ?_, ?_, ?_, ?_, ?_, ?_, ?_, hm.fault⟩
  · intro j
    by_cases hj : j = k
    · rw [hj]
      exact hok
    · rw [hm.others j hj]
      exact h.clients j
  · intro j hj
    rw [hm.accepted] at hj
    have hborn := hm.born
    rw [hm.others j (by omega)]
    exact h.unborn j hj
  · rw [hm.clientThreads]
    exact h.nodup
  · intro j hj
    rw [hm.clientThreads] at hj
    rw [hm.accepted, hsameDestroyed]
    exact h.listed j hj
  · intro j hj
    rw [hm.acceptThread] at hj
    rw [hm.accepted, hm.clientThreads, hsameDestroyed, hsameJoinable]
    exact h.held j hj
  · intro j hj
    rw [hm.accepted] at hj
    rw [hsameDestroyed, hm.clientThreads, hm.acceptThread]
    exact h.somewhere j hj
  · rw [hm.acceptThread, hm.clientThreads]
    exact h.ahead
  · intro j hj
    rw [hm.acceptThread] at hj
    by_cases hjk : j = k
    · subst hjk
      exact hfinished (h.waits j hj)
    · rw [hm.others j hjk]
      exact h.waits j hj
  · rw [hm.stop, hm.clientThreads]
    exact h.aheadOfStop
  · intro j hj hpassed
    rw [hm.clientThreads] at hj
    rw [hm.stop] at hpassed
    rw [hsameJoinable]
    exact h.passed j hj hpassed
  · rw [hm.stop, hm.acceptThread]
    exact h.stopping
  · rw [hm.stop, hm.clientThreads]
    exact h.emptied

/-- A thread whose client has no step left to take but its return still has its object. -/
private theorem Custody.undestroyed {k : Nat} (h : s.Custody) (hpc : (s.clients k).pc ≠ .returned) :
    (s.clients k).destroyed = false := by
  rw [← Bool.not_eq_true]
  intro hdestroyed
  exact hpc ((h.clients k).joined ((h.clients k).destroyed hdestroyed))

private theorem clientMoves_setClient {k : Nat} {c : ClientThread} (h : s.Custody)
    (hk : k < s.accepted) (hok : c.Ok) (hjoinable : c.joinable = (s.clients k).joinable)
    (hdestroyed : c.destroyed = (s.clients k).destroyed)
    (hfinished : (s.clients k).finished = true → c.finished = true) :
    s.ClientMoves k (s.setClient k c) := by
  have hself : (s.setClient k c).clients k = c := s.clients_setClient k c
  refine ⟨hk, ?_, ?_, rfl, rfl, rfl, rfl, h.fault⟩
  · rw [hself]
    exact ⟨hok, hjoinable, hdestroyed, hfinished⟩
  · exact fun j hj ↦ s.clients_setClient_of_ne hj c

/-- A step of a client's thread changes the client and the counter only. -/
theorem clientMoves_stepClient {k : Nat} (h : s.Custody) (hk : k < s.accepted)
    (ht : s.stepClient k = some t) : s.ClientMoves k t := by
  have hok := h.clients k
  unfold stepClient at ht
  cases hpc : (s.clients k).pc with
  | starting =>
    simp only [hpc] at ht
    cases ht
    have hlive : (s.clients k).finished = false := ClientThread.live_of_pc hok (by simp [hpc])
    have hnext := hok.goOn .handling hlive (by decide) (fun _ ↦ hpc) (by decide)
    have hm := clientMoves_setClient h hk hnext rfl rfl id
    exact ⟨hm.born, hm.client, hm.others, rfl, rfl, rfl, rfl, h.fault⟩
  | handling =>
    simp only [hpc] at ht
    split at ht
    · cases ht
    · cases ht
      have hlive : (s.clients k).finished = false := ClientThread.live_of_pc hok (by simp [hpc])
      have hnext := hok.goOn .closing hlive (by decide) (fun hpc' ↦ by cases hpc')
        (by decide)
      exact clientMoves_setClient h hk hnext rfl rfl id
  | closing =>
    simp only [hpc] at ht
    cases ht
    have hlive : (s.clients k).finished = false := ClientThread.live_of_pc hok (by simp [hpc])
    have hnext := hok.goOn .uncounting hlive (by decide) (fun hpc' ↦ by cases hpc')
      (by decide)
    exact clientMoves_setClient h hk hnext rfl rfl id
  | uncounting =>
    simp only [hpc] at ht
    cases ht
    have hlive : (s.clients k).finished = false := ClientThread.live_of_pc hok (by simp [hpc])
    have hnext := hok.goOn .finishing hlive (by decide) (fun hpc' ↦ by cases hpc')
      (by decide)
    have hm := clientMoves_setClient h hk hnext rfl rfl id
    exact ⟨hm.born, hm.client, hm.others, rfl, rfl, rfl, rfl, h.fault⟩
  | finishing =>
    simp only [hpc] at ht
    cases ht
    have hundestroyed : (s.clients k).destroyed = false := h.undestroyed (by simp [hpc])
    have hnext : { s.clients k with finished := true, pc := .returning }.Ok := by
      refine ⟨by simp, ?_, hok.destroyed, hok.nonempty, hok.handed, by simp⟩
      intro hjoined
      have hreturned := hok.joined hjoined
      rw [hpc] at hreturned
      cases hreturned
    have hm := clientMoves_setClient h hk hnext rfl rfl fun _ ↦ rfl
    refine ⟨hm.born, hm.client, hm.others, rfl, rfl, rfl, rfl, ?_⟩
    simp [setClient, check, h.fault, hundestroyed]
  | returning =>
    simp only [hpc] at ht
    cases ht
    have hfinished : (s.clients k).finished = true := hok.finished.mpr (.inl hpc)
    have hnext : { s.clients k with pc := .returned }.Ok :=
      ⟨by simp [hfinished], fun _ ↦ rfl, hok.destroyed, hok.nonempty, hok.handed, by simp⟩
    exact clientMoves_setClient h hk hnext rfl rfl id
  | returned =>
    simp only [hpc] at ht
    cases ht

theorem custody_recv {k : Nat} (h : s.Custody) (hk : k < s.accepted)
    (hpc : (s.clients k).pc = .handling) (result : Recv) :
    (s.setClient k (afterRecv (s.clients k) result)).Custody := by
  apply h.of_clientMoves
  refine clientMoves_setClient h hk (ClientThread.ok_afterRecv (h.clients k) hpc result) ?_ ?_ ?_
  all_goals
    cases result with
    | error e => simp [afterRecv]
    | ok chunk =>
      cases chunk with
      | nil => simp [afterRecv]
      | cons b bs =>
        rw [afterRecv]
        split <;> simp

/-- A step of the accept thread that only moves on. -/
theorem Custody.turn (h : s.Custody) (hclients : t.clients = s.clients)
    (haccepted : t.accepted = s.accepted) (hthreads : t.clientThreads = s.clientThreads)
    (hstop : t.stop = s.stop) (hfault : t.fault = s.fault)
    (hholds : s.acceptThread.holds = none ∧ t.acceptThread.holds = none)
    (hexited : s.acceptThread ≠ .exited)
    (hahead : t.acceptThread.ahead.Nodup ∧ ∀ k ∈ t.acceptThread.ahead, k ∈ s.clientThreads)
    (hwaits : ∀ k ∈ t.acceptThread.waitsFor, (s.clients k).finished = true) : t.Custody := by
  refine ⟨?_, ?_, ?_, ?_, ?_, ?_, ?_, ?_, ?_, ?_, ?_, ?_, hfault.trans h.fault⟩
  · rw [hclients]
    exact h.clients
  · rw [hclients, haccepted]
    exact h.unborn
  · rw [hthreads]
    exact h.nodup
  · rw [hclients, haccepted, hthreads]
    exact h.listed
  · intro k hk
    rw [hholds.2] at hk
    cases hk
  · rw [hclients, haccepted, hthreads, hholds.2, ← hholds.1]
    exact h.somewhere
  · rw [hthreads]
    exact hahead
  · rw [hclients]
    exact hwaits
  · rw [hthreads, hstop]
    exact h.aheadOfStop
  · rw [hclients, hthreads, hstop]
    exact h.passed
  · intro hpast
    rw [hstop] at hpast
    exact absurd (h.stopping hpast) hexited
  · rw [hstop, hthreads]
    exact h.emptied

/-- A step of `stop` that only moves on. -/
theorem Custody.stopTurn (h : s.Custody) (hclients : t.clients = s.clients)
    (haccepted : t.accepted = s.accepted) (hthreads : t.clientThreads = s.clientThreads)
    (hacceptThread : t.acceptThread = s.acceptThread) (hfault : t.fault = s.fault)
    (hahead : ∀ k ∈ t.stop.ahead, k ∈ s.clientThreads)
    (hpassed : ∀ k ∈ s.clientThreads, t.stop.passed k → (s.clients k).joinable = false)
    (hstopping : t.stop.pastAcceptThread = true → s.acceptThread = .exited)
    (hreturned : t.stop ≠ .returned) : t.Custody := by
  refine ⟨?_, ?_, ?_, ?_, ?_, ?_, ?_, ?_, ?_, ?_, ?_, fun hstop ↦ absurd hstop hreturned,
    hfault.trans h.fault⟩
  · rw [hclients]
    exact h.clients
  · rw [hclients, haccepted]
    exact h.unborn
  · rw [hthreads]
    exact h.nodup
  · rw [hclients, haccepted, hthreads]
    exact h.listed
  · rw [hclients, haccepted, hthreads, hacceptThread]
    exact h.held
  · rw [hclients, haccepted, hthreads, hacceptThread]
    exact h.somewhere
  · rw [hthreads, hacceptThread]
    exact h.ahead
  · rw [hclients, hacceptThread]
    exact h.waits
  · rw [hthreads]
    exact hahead
  · rw [hclients, hthreads]
    exact hpassed
  · rw [hacceptThread]
    exact hstopping

/-- A `join` that returns leaves the object where it is. -/
theorem Custody.joined {k : Nat} (h : s.Custody) (hk : k ∈ s.clientThreads)
    (hpc : (s.clients k).pc = .returned) : (s.joined k).Custody := by
  have hok := h.clients k
  have hdestroyed : ∀ j, ((s.joined k).clients j).destroyed = (s.clients j).destroyed := by
    intro j
    by_cases hj : j = k
    · rw [hj, TcpServer.joined, clients_setClient]
    · rw [TcpServer.joined, clients_setClient_of_ne _ hj]
  have hfinished : ∀ j, ((s.joined k).clients j).finished = (s.clients j).finished := by
    intro j
    by_cases hj : j = k
    · rw [hj, TcpServer.joined, clients_setClient]
    · rw [TcpServer.joined, clients_setClient_of_ne _ hj]
  refine ⟨?_, ?_, h.nodup, ?_, ?_, ?_, h.ahead, ?_, h.aheadOfStop, ?_, h.stopping, h.emptied,
    h.fault⟩
  · intro j
    by_cases hj : j = k
    · rw [hj, TcpServer.joined, clients_setClient]
      exact ⟨hok.finished, fun _ ↦ hpc, fun _ ↦ rfl, hok.nonempty, hok.handed, hok.state⟩
    · rw [TcpServer.joined, clients_setClient_of_ne _ hj]
      exact h.clients j
  · intro j hj
    have hborn := (h.listed k hk).1
    change s.accepted ≤ j at hj
    rw [TcpServer.joined, clients_setClient_of_ne _ (by omega)]
    exact h.unborn j hj
  · intro j hj
    rw [hdestroyed]
    exact h.listed j hj
  · intro j hj
    obtain ⟨hborn, hnotin, hundestroyed, hjoinable⟩ := h.held j hj
    have hne : j ≠ k := by
      rintro rfl
      exact hnotin hk
    rw [hdestroyed, TcpServer.joined, clients_setClient_of_ne _ hne]
    exact ⟨hborn, hnotin, hundestroyed, hjoinable⟩
  · intro j hj
    rw [hdestroyed]
    exact h.somewhere j hj
  · intro j hj
    rw [hfinished]
    exact h.waits j hj
  · intro j hj hpassed
    by_cases hjk : j = k
    · rw [hjk, TcpServer.joined, clients_setClient]
    · rw [TcpServer.joined, clients_setClient_of_ne _ hjk]
      exact h.passed j hj hpassed

end TcpServer
end EventStreamCore.Ingest.TcpIngestServer
