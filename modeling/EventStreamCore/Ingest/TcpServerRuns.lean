import EventStreamCore.Ingest.TcpCleanup
import EventStreamCore.Ingest.TcpCounters

/-!
# Runs of the thread-per-client server

What the threads, the counters and the cleanup of `TcpIngestServer`,
`src/core/ingest/tcp.cpp:72–172`, come to over whole runs.
-/

namespace EventStreamCore.Ingest.TcpIngestServer
open EventStreamCore.Lib EventStreamCore.Events

namespace TcpServer

variable {s t : TcpServer}

/-! ### What has been handed over -/

private theorem place_setClient {j k : Nat} {c : ClientThread}
    (h : c.place = (s.clients k).place) :
    ((s.setClient k c).clients j).place = (s.clients j).place := by
  by_cases hj : j = k
  · rw [hj, clients_setClient, h]
  · rw [clients_setClient_of_ne _ hj]

theorem place_erase (s : TcpServer) (j k : Nat) :
    ((s.erase k).clients j).place = (s.clients j).place :=
  place_setClient (s := s.check _) rfl

theorem place_joined (s : TcpServer) (j k : Nat) :
    ((s.joined k).clients j).place = (s.clients j).place :=
  place_setClient rfl

private theorem place_stepAcceptThread (ht : s.stepAcceptThread = some t) (j : Nat) :
    (t.clients j).place = (s.clients j).place := by
  unfold stepAcceptThread at ht
  split at ht
  · split at ht <;> cases ht <;> rfl
  · cases ht
    rfl
  · dsimp only at ht
    split at ht <;> cases ht <;> rfl
  · cases ht
    rfl
  · next k rest _ =>
    split at ht
    · split at ht <;> cases ht
      · rfl
      · exact s.place_erase j k
    · cases ht
      rfl
  · next k rest _ =>
    split at ht <;> cases ht
    exact ((s.joined k).place_erase j k).trans (s.place_joined j k)
  · cases ht

private theorem place_stepStop (ht : s.stepStop = some t) (j : Nat) :
    (t.clients j).place = (s.clients j).place := by
  unfold stepStop at ht
  split at ht
  · cases ht
  · cases ht
    rfl
  · split at ht <;> cases ht
    rfl
  · cases ht
    rfl
  · next k rest _ =>
    split at ht
    · split at ht <;> cases ht
      exact s.place_joined j k
    · cases ht
      rfl
  · cases ht
    dsimp only
    split <;> rfl
  · cases ht

private theorem handed_stepClient {k : Nat} (ht : s.stepClient k = some t) (j : Nat) :
    (t.clients j).handed = (s.clients j).handed ∧ (j ≠ k → t.clients j = s.clients j) := by
  have hset : ∀ (r : TcpServer) (c : ClientThread), r.clients = s.clients →
      c.handed = (s.clients k).handed →
      ((r.setClient k c).clients j).handed = (s.clients j).handed ∧
        (j ≠ k → (r.setClient k c).clients j = s.clients j) := by
    intro r c hclients hc
    constructor
    · by_cases hj : j = k
      · rw [hj, clients_setClient, hc]
      · rw [clients_setClient_of_ne _ hj, hclients]
    · intro hj
      rw [clients_setClient_of_ne _ hj, hclients]
  unfold stepClient at ht
  cases hpc : (s.clients k).pc with
  | handling =>
    simp only [hpc] at ht
    split at ht <;> cases ht
    exact hset s _ rfl rfl
  | returned =>
    simp only [hpc] at ht
    cases ht
  | finishing =>
    simp only [hpc] at ht
    cases ht
    exact hset (s.check _) _ rfl rfl
  | _ =>
    simp only [hpc] at ht
    cases ht
    exact hset s _ rfl rfl

/-- What a step does with the thread of a client: nothing, one of its own steps, or a `recv`. -/
theorem clients_step {l : TcpServerLabel} (ht : s.step l = some t) (j : Nat) :
    (t.clients j).place = (s.clients j).place ∨
    (l = .client j ∧ j < s.accepted ∧ (t.clients j).handed = (s.clients j).handed) ∨
    ∃ result, l = .recv j result ∧ j < s.accepted ∧ (s.clients j).pc = .handling ∧
      t.clients j = afterRecv (s.clients j) result := by
  cases l with
  | accept =>
    rw [TcpServer.step] at ht
    split at ht <;> cases ht
    exact .inl rfl
  | acceptThread => exact .inl (place_stepAcceptThread ht j)
  | recv k result =>
    rw [TcpServer.step] at ht
    split at ht <;> cases ht
    next hin =>
    by_cases hj : j = k
    · subst hj
      exact .inr (.inr ⟨result, rfl, hin.1, hin.2, clients_setClient s j _⟩)
    · exact .inl (by rw [clients_setClient_of_ne _ hj])
  | client k =>
    rw [TcpServer.step] at ht
    split at ht
    · next hk =>
      obtain ⟨hhanded, hothers⟩ := handed_stepClient ht j
      by_cases hj : j = k
      · subst hj
        exact .inr (.inl ⟨rfl, hk, hhanded⟩)
      · exact .inl (by rw [hothers hj])
    · cases ht
  | callStop =>
    rw [TcpServer.step] at ht
    split at ht <;> cases ht
    exact .inl rfl
  | stop => exact .inl (place_stepStop ht j)

/-- No step makes more than one new client. -/
theorem accepted_step {l : TcpServerLabel} (ht : s.step l = some t) :
    t.accepted = s.accepted ∨ t.accepted = s.accepted + 1 := by
  cases l with
  | accept =>
    rw [TcpServer.step] at ht
    split at ht <;> cases ht
    exact .inr rfl
  | acceptThread =>
    left
    change s.stepAcceptThread = some t at ht
    unfold stepAcceptThread at ht
    split at ht
    · split at ht <;> cases ht <;> rfl
    · cases ht
      rfl
    · dsimp only at ht
      split at ht <;> cases ht <;> rfl
    · cases ht
      rfl
    · split at ht
      · split at ht <;> cases ht <;> rfl
      · cases ht
        rfl
    · split at ht <;> cases ht
      rfl
    · cases ht
  | recv k result =>
    rw [TcpServer.step] at ht
    split at ht <;> cases ht
    exact .inl rfl
  | client k =>
    left
    rw [TcpServer.step] at ht
    split at ht
    · unfold stepClient at ht
      dsimp only at ht
      split at ht
      · cases ht
        rfl
      · split at ht <;> cases ht
        rfl
      · cases ht
        rfl
      · cases ht
        rfl
      · cases ht
        rfl
      · cases ht
        rfl
      · cases ht
    · cases ht
  | callStop =>
    rw [TcpServer.step] at ht
    split at ht <;> cases ht
    exact .inl rfl
  | stop =>
    left
    change s.stepStop = some t at ht
    unfold stepStop at ht
    split at ht
    · cases ht
    · cases ht
      rfl
    · split at ht <;> cases ht
      rfl
    · cases ht
      rfl
    · split at ht
      · split at ht <;> cases ht
        rfl
      · cases ht
        rfl
    · cases ht
      rfl
    · cases ht

/-- No step takes back what has been handed over. -/
theorem handed_step {l : TcpServerLabel} (ht : s.step l = some t) (j : Nat) :
    (s.clients j).handed <+: (t.clients j).handed := by
  rcases clients_step ht j with hplace | ⟨-, -, hhanded⟩ | ⟨result, -, -, -, hclient⟩
  · have hhanded : (t.clients j).handed = (s.clients j).handed := congrArg Prod.snd hplace
    rw [hhanded]
  · rw [hhanded]
  · rw [hclient]
    cases result with
    | error e => exact List.prefix_rfl
    | ok chunk =>
      cases chunk with
      | nil => exact List.prefix_rfl
      | cons b bs =>
        rw [afterRecv]
        split <;> exact List.prefix_append _ _

/-! ### Every run -/

/-- What every run keeps. -/
structure Inv (s : TcpServer) : Prop where
  custody : s.Custody
  counted : s.Counted
  cleaned : s.Cleaned
  flagged : s.stop ≠ .notCalled → s.isRunning = false

/-- Only a call of `stop` clears the flag, and only it starts `stop`. -/
private theorem flag_step {l : TcpServerLabel} (ht : s.step l = some t) :
    l = .callStop ∧ t.isRunning = false ∨
      t.isRunning = s.isRunning ∧ (t.stop ≠ .notCalled → s.stop ≠ .notCalled) := by
  cases l with
  | accept =>
    rw [TcpServer.step] at ht
    split at ht <;> cases ht
    exact .inr ⟨rfl, id⟩
  | acceptThread =>
    change s.stepAcceptThread = some t at ht
    unfold stepAcceptThread at ht
    right
    split at ht
    · split at ht <;> cases ht <;> exact ⟨rfl, id⟩
    · cases ht
      exact ⟨rfl, id⟩
    · dsimp only at ht
      split at ht <;> cases ht <;> exact ⟨rfl, id⟩
    · cases ht
      exact ⟨rfl, id⟩
    · split at ht
      · split at ht <;> cases ht <;> exact ⟨rfl, id⟩
      · cases ht
        exact ⟨rfl, id⟩
    · split at ht <;> cases ht
      exact ⟨rfl, id⟩
    · cases ht
  | recv k result =>
    rw [TcpServer.step] at ht
    split at ht <;> cases ht
    exact .inr ⟨rfl, id⟩
  | client k =>
    rw [TcpServer.step] at ht
    right
    split at ht
    · unfold stepClient at ht
      cases hpc : (s.clients k).pc with
      | handling =>
        simp only [hpc] at ht
        split at ht <;> cases ht
        exact ⟨rfl, id⟩
      | returned =>
        simp only [hpc] at ht
        cases ht
      | _ =>
        simp only [hpc] at ht
        cases ht
        exact ⟨rfl, id⟩
    · cases ht
  | callStop =>
    rw [TcpServer.step] at ht
    split at ht <;> cases ht
    exact .inl ⟨rfl, rfl⟩
  | stop =>
    change s.stepStop = some t at ht
    unfold stepStop at ht
    right
    split at ht
    · cases ht
    · next hpc =>
      cases ht
      exact ⟨rfl, fun _ ↦ by simp [hpc]⟩
    · next hpc =>
      split at ht <;> cases ht
      exact ⟨rfl, fun _ ↦ by simp [hpc]⟩
    · next hpc =>
      cases ht
      exact ⟨rfl, fun _ ↦ by simp [hpc]⟩
    · next hpc =>
      split at ht
      · split at ht <;> cases ht
        exact ⟨rfl, fun _ ↦ by simp [hpc]⟩
      · cases ht
        exact ⟨rfl, fun _ ↦ by simp [hpc]⟩
    · next hpc =>
      cases ht
      exact ⟨rfl, fun _ ↦ by simp [hpc]⟩
    · cases ht

theorem Inv.step {l : TcpServerLabel} (h : s.Inv) (ht : s.step l = some t) : t.Inv := by
  refine ⟨h.custody.step ht, h.counted.step h.custody ht, h.cleaned.step h.custody ht, ?_⟩
  intro hcalled
  rcases flag_step ht with ⟨-, hcleared⟩ | ⟨hsame, hbefore⟩
  · exact hcleared
  · rw [hsame]
    exact h.flagged (hbefore hcalled)

private theorem custody_initial : TcpServer.initial.Custody where
  clients _ := .initial
  unborn _ _ := rfl
  nodup := List.nodup_nil
  listed _ hk := absurd hk List.not_mem_nil
  held k hk := by cases hk
  somewhere _ hk := absurd hk (Nat.not_lt_zero _)
  ahead := ⟨List.nodup_nil, fun _ hk ↦ absurd hk List.not_mem_nil⟩
  waits k hk := by cases hk
  aheadOfStop _ hk := absurd hk List.not_mem_nil
  passed _ hk := absurd hk List.not_mem_nil
  stopping hpast := by cases hpast
  emptied hstop := by cases hstop
  fault := rfl

private theorem cleaned_initial : TcpServer.initial.Cleaned where
  fresh _ _ := rfl
  finished k hk := by cases hk
  ahead _ hk := absurd hk List.not_mem_nil
  live := Nat.le_refl _
  interval _ := Nat.zero_lt_succ 9

theorem Inv.initial : TcpServer.initial.Inv :=
  ⟨custody_initial, ⟨rfl, rfl⟩, cleaned_initial, fun h ↦ absurd rfl h⟩

theorem Inv.of_reachable (h : tcpServer.Reachable s) : s.Inv :=
  Machine.Reachable.invariant .initial (fun _ _ _ hi ht ↦ hi.step ht) h

/-- An object that is gone belongs to a thread that has returned and been joined. -/
theorem Custody.joined_of_destroyed (h : s.Custody) {k : Nat}
    (hk : (s.clients k).destroyed = true) :
    (s.clients k).joinable = false ∧ (s.clients k).pc = .returned := by
  have hjoined := (h.clients k).destroyed hk
  exact ⟨hjoined, (h.clients k).joined hjoined⟩

/-- When `stop` has returned, every object is gone. -/
theorem Custody.destroyed_of_stopped (h : s.Custody) (hstop : s.stop = .returned) {k : Nat}
    (hk : k < s.accepted) : (s.clients k).destroyed = true := by
  have hexited : s.acceptThread = .exited := h.stopping (by rw [hstop]; rfl)
  rcases h.somewhere k hk with hgone | hin | hheld
  · exact hgone
  · rw [h.emptied hstop] at hin
    exact absurd hin List.not_mem_nil
  · rw [hexited] at hheld
    cases hheld

end TcpServer

/-- In every interleaving of the accept thread, the threads of the clients and `stop`: no thread
object is destroyed before its thread has returned and been joined, and no thread stores into an
object that is gone; every client's object is in the hands of the accept thread, in the list or
destroyed; a cleanup never waits for a client that is still served; what is handed over of a client
is what `handleClient` makes of the bytes read from it; `activeConnections_` is the number of
clients between the two accesses to it; and when `stop` has returned, every client thread there
has ever been has returned and been joined and the two counters of connections are exact. -/
theorem client_threads_joined (s : TcpServer) (h : tcpServer.Reachable s) :
    s.fault = false ∧
    (∀ k, (s.clients k).destroyed = true →
      (s.clients k).joinable = false ∧ (s.clients k).pc = .returned) ∧
    (∀ k < s.accepted, (s.clients k).destroyed = true ∨ k ∈ s.clientThreads ∨
      k ∈ s.acceptThread.holds) ∧
    (∀ k ∈ s.acceptThread.waitsFor,
      (s.clients k).pc = .returning ∨ (s.clients k).pc = .returned) ∧
    (∀ k, (s.clients k).handed = (handleClient .initial ((s.clients k).received.map .ok)).1) ∧
    s.activeConnections = UInt64.ofNat (tally ClientThread.counted s.clients s.accepted) ∧
    (s.stop = .returned →
      (∀ k < s.accepted, (s.clients k).destroyed = true ∧ (s.clients k).joinable = false ∧
        (s.clients k).pc = .returned) ∧
      s.clientThreads = [] ∧ s.activeConnections = 0 ∧
      s.totalConnectionsAccepted = UInt64.ofNat s.accepted) := by
  obtain ⟨hcustody, hcounted, -, -⟩ := TcpServer.Inv.of_reachable h
  have hactive : s.activeConnections =
      UInt64.ofNat (tally ClientThread.counted s.clients s.accepted) := by
    rw [← UInt64.toNat_inj, UInt64.toNat_ofNat']
    exact hcounted.active
  refine ⟨hcustody.fault, fun _ ↦ hcustody.joined_of_destroyed, hcustody.somewhere, ?_,
    fun k ↦ (hcustody.clients k).handed, hactive, ?_⟩
  · exact fun k hk ↦ (hcustody.clients k).finished.mp (hcustody.waits k hk)
  · intro hstop
    have hexited : s.acceptThread = .exited := hcustody.stopping (by rw [hstop]; rfl)
    have hall : ∀ k < s.accepted, (s.clients k).destroyed = true ∧
        (s.clients k).joinable = false ∧ (s.clients k).pc = .returned := by
      intro k hk
      have hgone := hcustody.destroyed_of_stopped hstop hk
      exact ⟨hgone, hcustody.joined_of_destroyed hgone⟩
    refine ⟨hall, hcustody.emptied hstop, ?_, ?_⟩
    · have hnone : tally ClientThread.counted s.clients s.accepted = 0 := by
        apply tally_eq_zero
        intro k hk
        simp [ClientThread.counted, (hall k hk).2.2]
      rw [hactive, hnone]
      rfl
    · have htotal := hcounted.total
      rw [hexited] at htotal
      have hlt : s.totalConnectionsAccepted.toNat < 2 ^ 64 := s.totalConnectionsAccepted.toNat_lt
      rw [← UInt64.toNat_inj, UInt64.toNat_ofNat']
      simp only [AcceptThreadPc.uncounted] at htotal
      omega

/-- One client sends a frame, hangs up, and `stop` joins its thread. -/
theorem client_threads_joined_stop : ∃ s : TcpServer,
    s.stop = .returned ∧ s.accepted = 1 ∧ (s.clients 0).joinable = false ∧
    (s.clients 0).handed = [⟨.batch, [116], []⟩] ∧ s.totalConnectionsAccepted = 1 := by
  have hrun : (tcpServer.run tcpServer.start
      [.accept, .client 0, .acceptThread, .acceptThread,
        .recv 0 (.ok (createEventFrame 0 [116] [])), .callStop, .stop, .acceptThread, .stop,
        .recv 0 (.ok []), .client 0, .client 0, .client 0, .client 0, .stop, .stop, .stop]).map
      (fun s ↦ (s.stop, s.accepted, (s.clients 0).received)) =
      some (.returned, 1, [createEventFrame 0 [116] []]) := by
    decide +kernel
  obtain ⟨s, hrun, hs⟩ := Option.map_eq_some_iff.mp hrun
  simp only [Prod.mk.injEq] at hs
  obtain ⟨hstop, haccepted, hreceived⟩ := hs
  obtain ⟨-, -, -, -, hhanded, -, hreturned⟩ :=
    client_threads_joined s (Machine.Reachable.run .start hrun)
  obtain ⟨hclients, -, -, htotal⟩ := hreturned hstop
  refine ⟨s, hstop, haccepted, (hclients 0 (by omega)).2.1, ?_, ?_⟩
  · rw [hhanded, hreceived]
    decide +kernel
  · rw [htotal, haccepted]
    rfl

/-- The list of threads never grows with the number of connections ever made: outside a cleanup no
entry is left that had finished when the last cleanup began, and there are at most ten more entries
than clients that were still served then. -/
theorem cleanup_bounds_threads (s : TcpServer) (h : tcpServer.Reachable s)
    (hcleans : s.acceptThread.cleans = false) :
    (∀ k ∈ s.clientThreads, s.stale k = false) ∧ s.clientThreads.length ≤ s.served + 10 := by
  have hcleaned := (TcpServer.Inv.of_reachable h).cleaned
  have hfresh : ∀ k ∈ s.clientThreads, s.stale k = false := by
    intro k hk
    rw [← Bool.not_eq_true]
    intro hstale
    have hahead := hcleaned.ahead k hk hstale
    rw [AcceptThreadPc.ahead_of_not_cleans hcleans] at hahead
    exact absurd hahead List.not_mem_nil
  refine ⟨hfresh, ?_⟩
  have hall : (s.clientThreads.countP fun k ↦ !s.stale k) = s.clientThreads.length := by
    rw [List.countP_eq_length]
    intro k hk
    rw [hfresh k hk]
    rfl
  have hrecent : s.recent ≤ 10 := by
    have hinterval := hcleaned.interval hcleans
    rw [kCleanupInterval] at hinterval
    unfold TcpServer.recent
    split <;> omega
  have hlive := hcleaned.live
  omega

/-- Of ten clients one has hung up; the cleanup joins its thread and keeps the other nine. -/
theorem cleanup_bounds_threads_ten : ∃ s : TcpServer,
    s.accepted = 10 ∧ s.stale 0 = true ∧ 0 ∉ s.clientThreads ∧ s.clientThreads.length ≤ 9 + 10 := by
  have hrun : (tcpServer.run tcpServer.start
      (([.accept, .acceptThread, .acceptThread, .client 0, .recv 0 (.ok []), .client 0, .client 0,
          .client 0] : List TcpServerLabel) ++
        (List.replicate 9 [.accept, .acceptThread, .acceptThread]).flatten ++
        [.acceptThread, .client 0] ++ List.replicate 11 .acceptThread)).map
      (fun s ↦ (s.accepted, s.acceptThread, s.stale 0, s.served)) =
      some (10, .accepting, true, 9) := by
    decide +kernel
  obtain ⟨s, hrun, hs⟩ := Option.map_eq_some_iff.mp hrun
  simp only [Prod.mk.injEq] at hs
  obtain ⟨haccepted, hpc, hstale, hserved⟩ := hs
  obtain ⟨hfresh, hlength⟩ :=
    cleanup_bounds_threads s (Machine.Reachable.run .start hrun) (by rw [hpc]; rfl)
  refine ⟨s, haccepted, hstale, ?_, ?_⟩
  · intro hin
    have hfalse := hfresh 0 hin
    rw [hstale] at hfalse
    cases hfalse
  · omega

end EventStreamCore.Ingest.TcpIngestServer
