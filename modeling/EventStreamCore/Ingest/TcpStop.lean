import EventStreamCore.Ingest.TcpServerRuns
import EventStreamCore.Lib.Descent

/-!
# What the stop of the thread-per-client server waits for

`stop` joins every client's thread, `src/core/ingest/tcp.cpp:72–106`, and nothing in it wakes one
that is inside `recv`.
-/

namespace EventStreamCore.Ingest.TcpIngestServer
open EventStreamCore.Lib EventStreamCore.Events

/-! ### The end of stop -/

/-- No connection comes in any more, and a `recv` that returns finds that the client has hung up. -/
def TcpServerLabel.hangsUp : TcpServerLabel → Bool
  | .accept => false
  | .recv _ result => result = .ok []
  | _ => true

/-- The steps a client's thread has left once its client has hung up. -/
def ClientPc.work : ClientPc → Nat
  | .starting => 6
  | .handling => 5
  | .closing => 4
  | .uncounting => 3
  | .finishing => 2
  | .returning => 1
  | .returned => 0

namespace TcpServer

/-- The steps the accept thread has left once the flag is cleared, at most. -/
def acceptWork (s : TcpServer) : Nat :=
  match s.acceptThread with
  | .accepting => 1
  | .created _ => 2 * s.clientThreads.length + 7
  | .counting => 2 * s.clientThreads.length + 3
  | .cleaning rest => 2 * rest.length + 2
  | .joining _ rest => 2 * rest.length + 3
  | .exited => 0

/-- The steps `stop` has left, at most. -/
def stopWork (s : TcpServer) : Nat :=
  match s.stop with
  | .notCalled => s.clientThreads.length + s.acceptThread.uncounted + 6
  | .closingServer => s.clientThreads.length + s.acceptThread.uncounted + 5
  | .joiningAcceptThread => s.clientThreads.length + s.acceptThread.uncounted + 4
  | .joiningClients rest => rest.length + 3
  | .clearing => 1
  | .returned => 0

/-- All the steps that are left. -/
def work (s : TcpServer) : Nat :=
  tally (fun c ↦ ClientPc.work c.pc) s.clients s.accepted + s.acceptWork + s.stopWork

variable {s t : TcpServer}

/-- A client's thread that has not returned has a step that brings it closer. -/
private theorem exists_client_step {k : Nat} (hk : k < s.accepted)
    (hpc : (s.clients k).pc ≠ .returned) :
    ∃ l t, l.hangsUp = true ∧ s.step l = some t ∧ t.work < s.work := by
  -- what the client's thread does next leaves everything else as it is
  have hmove : ∀ l t c, TcpServerLabel.hangsUp l = true → s.step l = some t →
      t.clients = Function.update s.clients k c → c.pc.work < (s.clients k).pc.work →
      t.accepted = s.accepted → t.acceptWork = s.acceptWork → t.stopWork = s.stopWork →
      ∃ l t, TcpServerLabel.hangsUp l = true ∧ s.step l = some t ∧ t.work < s.work := by
    intro l t c hl ht hclients hlt haccepted haccept hstop
    refine ⟨l, t, hl, ht, ?_⟩
    have hupdate := tally_update (w := fun c ↦ ClientPc.work c.pc) (f := s.clients) hk c
    rw [work, work, hclients, haccepted, haccept, hstop]
    omega
  cases hplace : (s.clients k).pc with
  | starting =>
    refine hmove (.client k)
      { s.setClient k { s.clients k with pc := .handling } with
        activeConnections := s.activeConnections + 1 }
      { s.clients k with pc := .handling } rfl ?_ rfl ?_ rfl rfl rfl
    · simp only [TcpServer.step, hk, if_true, stepClient, hplace]
    · simp [hplace, ClientPc.work]
  | handling =>
    refine hmove (.recv k (.ok []))
      (s.setClient k { s.clients k with pc := .closing })
      { s.clients k with pc := .closing } rfl ?_ rfl ?_ rfl rfl rfl
    · simp only [TcpServer.step, hk, hplace, and_self, if_true, afterRecv]
    · simp [hplace, ClientPc.work]
  | closing =>
    refine hmove (.client k)
      (s.setClient k { s.clients k with pc := .uncounting })
      { s.clients k with pc := .uncounting } rfl ?_ rfl ?_ rfl rfl rfl
    · simp only [TcpServer.step, hk, if_true, stepClient, hplace]
    · simp [hplace, ClientPc.work]
  | uncounting =>
    refine hmove (.client k)
      { s.setClient k { s.clients k with pc := .finishing } with
        activeConnections := s.activeConnections - 1 }
      { s.clients k with pc := .finishing } rfl ?_ rfl ?_ rfl rfl rfl
    · simp only [TcpServer.step, hk, if_true, stepClient, hplace]
    · simp [hplace, ClientPc.work]
  | finishing =>
    refine hmove (.client k)
      ((s.check !(s.clients k).destroyed).setClient k
        { s.clients k with finished := true, pc := .returning })
      { s.clients k with finished := true, pc := .returning } rfl ?_ rfl ?_ rfl rfl rfl
    · simp only [TcpServer.step, hk, if_true, stepClient, hplace]
    · simp [hplace, ClientPc.work]
  | returning =>
    refine hmove (.client k)
      (s.setClient k { s.clients k with pc := .returned })
      { s.clients k with pc := .returned } rfl ?_ rfl ?_ rfl rfl rfl
    · simp only [TcpServer.step, hk, if_true, stepClient, hplace]
    · simp [hplace, ClientPc.work]
  | returned => exact absurd hplace hpc

/-- The clients' share of the work depends on their places only. -/
private theorem tally_work_congr (haccepted : t.accepted = s.accepted)
    (hpc : ∀ k, (t.clients k).pc = (s.clients k).pc) :
    tally (fun c ↦ ClientPc.work c.pc) t.clients t.accepted =
      tally (fun c ↦ ClientPc.work c.pc) s.clients s.accepted := by
  rw [haccepted]
  apply tally_congr
  intro k _
  rw [hpc k]

/-- Once the flag is cleared, the accept thread, or the client whose thread it joins, has a step
that brings its end closer. -/
private theorem exists_accept_step (h : s.Inv) (hflag : s.isRunning = false)
    (hstop : s.stop = .joiningAcceptThread) (hexited : s.acceptThread ≠ .exited) :
    ∃ l t, TcpServerLabel.hangsUp l = true ∧ s.step l = some t ∧ t.work < s.work := by
  have hmove : ∀ t, s.stepAcceptThread = some t → t.accepted = s.accepted →
      (∀ k, (t.clients k).pc = (s.clients k).pc) → t.stop = s.stop →
      t.acceptWork + t.clientThreads.length + t.acceptThread.uncounted <
        s.acceptWork + s.clientThreads.length + s.acceptThread.uncounted →
      ∃ l t, TcpServerLabel.hangsUp l = true ∧ s.step l = some t ∧ t.work < s.work := by
    intro t ht haccepted hpc hsame hlt
    refine ⟨.acceptThread, t, rfl, ht, ?_⟩
    rw [work, work, tally_work_congr haccepted hpc, stopWork, stopWork, hsame, hstop]
    dsimp only
    omega
  cases hpc : s.acceptThread with
  | accepting =>
    apply hmove { s with acceptThread := .exited } _ rfl (fun _ ↦ rfl) rfl
    · simp [acceptWork, hpc, AcceptThreadPc.uncounted]
    · simp [stepAcceptThread, hpc, hflag]
  | created k =>
    apply hmove { s with clientThreads := s.clientThreads ++ [k], acceptThread := .counting } _ rfl
      (fun _ ↦ rfl) rfl
    · simp only [acceptWork, hpc, AcceptThreadPc.uncounted, List.length_append,
        List.length_singleton]
      omega
    · simp [stepAcceptThread, hpc]
  | counting =>
    cases ht : s.stepAcceptThread with
    | none =>
      unfold stepAcceptThread at ht
      simp only [hpc] at ht
      split at ht <;> cases ht
    | some t =>
      have hstep := ht
      unfold stepAcceptThread at ht
      simp only [hpc] at ht
      split at ht <;> cases ht
      · refine hmove _ hstep rfl (fun _ ↦ rfl) rfl ?_
        simp only [acceptWork, hpc, AcceptThreadPc.uncounted]
        omega
      · refine hmove _ hstep rfl (fun _ ↦ rfl) rfl ?_
        simp only [acceptWork, hpc, AcceptThreadPc.uncounted]
        omega
  | cleaning rest =>
    cases rest with
    | nil =>
      apply hmove { s with connectionsSinceCleanup := 0, acceptThread := .accepting } _ rfl
        (fun _ ↦ rfl) rfl
      · simp [acceptWork, hpc, AcceptThreadPc.uncounted]
      · simp [stepAcceptThread, hpc]
    | cons k rest =>
      by_cases hfinished : (s.clients k).finished = true
      · by_cases hjoinable : (s.clients k).joinable = true
        · apply hmove { s with acceptThread := .joining k rest } _ rfl (fun _ ↦ rfl) rfl
          · simp only [acceptWork, hpc, AcceptThreadPc.uncounted, List.length_cons]
            omega
          · simp [stepAcceptThread, hpc, hfinished, hjoinable]
        · have hle : (s.clientThreads.erase k).length ≤ s.clientThreads.length :=
            List.erase_sublist.length_le
          apply hmove { s.erase k with acceptThread := .cleaning rest } _ rfl
            (fun j ↦ congrArg Prod.fst (s.place_erase j k)) rfl
          · simp only [acceptWork, hpc, AcceptThreadPc.uncounted, List.length_cons, TcpServer.erase]
            omega
          · simp [stepAcceptThread, hpc, hfinished, hjoinable]
      · apply hmove { s with acceptThread := .cleaning rest } _ rfl (fun _ ↦ rfl) rfl
        · simp only [acceptWork, hpc, AcceptThreadPc.uncounted, List.length_cons]
          omega
        · simp [stepAcceptThread, hpc, hfinished]
  | joining k rest =>
    have hk : k ∈ s.clientThreads :=
      h.custody.ahead.2 k (by rw [hpc]; exact List.mem_cons_self)
    by_cases hreturned : (s.clients k).pc = .returned
    · have hle : (s.clientThreads.erase k).length ≤ s.clientThreads.length :=
        List.erase_sublist.length_le
      apply hmove { (s.joined k).erase k with acceptThread := .cleaning rest } _ rfl
        (fun j ↦ congrArg Prod.fst (((s.joined k).place_erase j k).trans (s.place_joined j k))) rfl
      · simp only [acceptWork, hpc, AcceptThreadPc.uncounted, TcpServer.erase, TcpServer.joined,
          setClient]
        omega
      · simp [stepAcceptThread, hpc, hreturned]
    · exact exists_client_step (h.custody.listed k hk).1 hreturned
  | exited => exact absurd hpc hexited

/-- As long as `stop` has not returned, somebody has a step that brings its end closer. -/
theorem tcpServer_descends :
    tcpServer.Descent Inv (fun l ↦ l.hangsUp = true) (fun s ↦ s.stop = .returned) work where
  keeps s l t hi _ ht := hi.step ht
  descend s hi hg := by
    have hmove : ∀ l t, TcpServerLabel.hangsUp l = true → s.step l = some t →
        t.accepted = s.accepted → (∀ k, (t.clients k).pc = (s.clients k).pc) →
        t.acceptWork = s.acceptWork → t.stopWork < s.stopWork →
        ∃ l t, TcpServerLabel.hangsUp l = true ∧ s.step l = some t ∧ t.work < s.work := by
      intro l t hl ht haccepted hpc haccept hlt
      refine ⟨l, t, hl, ht, ?_⟩
      rw [work, work, tally_work_congr haccepted hpc, haccept]
      omega
    cases hpc : s.stop with
    | notCalled =>
      apply hmove .callStop { s with isRunning := false, stop := .closingServer } rfl _ rfl
        (fun _ ↦ rfl) rfl
      · simp [stopWork, hpc]
      · simp [TcpServer.step, hpc]
    | closingServer =>
      apply hmove .stop { s with serverOpen := false, stop := .joiningAcceptThread } rfl _ rfl
        (fun _ ↦ rfl) rfl
      · simp [stopWork, hpc]
      · simp [TcpServer.step, stepStop, hpc]
    | joiningAcceptThread =>
      have hflag : s.isRunning = false := hi.flagged (by simp [hpc])
      by_cases hexited : s.acceptThread = .exited
      · apply hmove .stop { s with stop := .joiningClients s.clientThreads } rfl _ rfl
          (fun _ ↦ rfl) rfl
        · simp only [stopWork, hpc]
          omega
        · simp [TcpServer.step, stepStop, hpc, hexited]
      · exact exists_accept_step hi hflag hpc hexited
    | joiningClients rest =>
      cases rest with
      | nil =>
        apply hmove .stop { s with stop := .clearing } rfl _ rfl (fun _ ↦ rfl) rfl
        · simp [stopWork, hpc]
        · simp [TcpServer.step, stepStop, hpc]
      | cons k rest =>
        have hk : k ∈ s.clientThreads :=
          hi.custody.aheadOfStop k (by rw [hpc]; exact List.mem_cons_self)
        by_cases hjoinable : (s.clients k).joinable = true
        · by_cases hreturned : (s.clients k).pc = .returned
          · apply hmove .stop { s.joined k with stop := .joiningClients rest } rfl _ rfl
              (fun j ↦ congrArg Prod.fst (s.place_joined j k)) rfl
            · simp [stopWork, hpc]
            · simp [TcpServer.step, stepStop, hpc, hjoinable, hreturned]
          · exact exists_client_step (hi.custody.listed k hk).1 hreturned
        · apply hmove .stop { s with stop := .joiningClients rest } rfl _ rfl (fun _ ↦ rfl) rfl
          · simp [stopWork, hpc]
          · simp [TcpServer.step, stepStop, hpc, hjoinable]
    | clearing =>
      cases ht : s.stepStop with
      | none => simp [stepStop, hpc] at ht
      | some t =>
        have hstep := ht
        simp only [stepStop, hpc, Option.some.injEq] at ht
        subst ht
        have hexited : s.acceptThread = .exited := hi.custody.stopping (by rw [hpc]; rfl)
        refine hmove .stop _ rfl hstep rfl ?_ ?_ ?_
        · intro k
          dsimp only
          split <;> rfl
        · simp [acceptWork, check, hexited]
        · simp [stopWork, hpc]
    | returned => exact absurd hpc hg

end TcpServer

/-- `stop` waits for its clients and for nothing else: from every reachable state, wherever the
threads stand and also in the middle of a cleanup, it returns as soon as the clients hang up. -/
theorem stop_returns_when_clients_hang_up (s : TcpServer) (h : tcpServer.Reachable s) :
    ∃ ls t, (∀ l ∈ ls, l.hangsUp = true) ∧ tcpServer.run s ls = some t ∧ t.stop = .returned ∧
      ls.length ≤ s.work :=
  TcpServer.tcpServer_descends.exists_run (TcpServer.Inv.of_reachable h)

/-- With one client connected and idle. -/
theorem stop_returns_when_clients_hang_up_one : ∃ s ls t,
    tcpServer.Reachable s ∧ (s.clients 0).pc = .handling ∧ (∀ l ∈ ls, l.hangsUp = true) ∧
    tcpServer.run s ls = some t ∧ t.stop = .returned := by
  have hrun : (tcpServer.run tcpServer.start [.accept, .client 0, .acceptThread, .acceptThread]).map
      (fun s ↦ (s.clients 0).pc) = some .handling := by
    decide +kernel
  obtain ⟨s, hrun, hs⟩ := Option.map_eq_some_iff.mp hrun
  have hreach := Machine.Reachable.run .start hrun
  obtain ⟨ls, t, hls, hr, ht, -⟩ := stop_returns_when_clients_hang_up s hreach
  exact ⟨s, ls, t, hreach, hs, hls, hr, ht⟩

/-! ### A client that says nothing -/

/-- Neither a step of the thread of a client nor a `recv` of it that returns. -/
def TcpServerLabel.passes (k : Nat) : TcpServerLabel → Bool
  | .recv j _ => j != k
  | .client j => j != k
  | _ => true

/-- As long as a thread is inside `recv`, `stop` has not returned. -/
private theorem TcpServer.Inv.not_returned {s : TcpServer} (h : s.Inv) {k : Nat}
    (hpc : (s.clients k).pc = .handling) : s.stop ≠ .returned := by
  intro hstop
  by_cases hk : k < s.accepted
  · have hgone := h.custody.destroyed_of_stopped hstop hk
    obtain ⟨-, hreturned⟩ := h.custody.joined_of_destroyed hgone
    rw [hpc] at hreturned
    cases hreturned
  · rw [h.custody.unborn k (by omega)] at hpc
    cases hpc

/-- `stop` waits for every client: nothing it does wakes a thread that is inside `recv`, so as long
as one client neither sends anything nor hangs up, `stop` does not return, whatever the other
threads and clients do. -/
theorem stop_waits_for_silent_client (s t : TcpServer) (h : tcpServer.Reachable s) (k : Nat)
    (hpc : (s.clients k).pc = .handling) (ls : List TcpServerLabel)
    (hls : ∀ l ∈ ls, l.passes k = true) (hr : tcpServer.run s ls = some t) :
    (t.clients k).pc = .handling ∧ t.stop ≠ .returned := by
  have hstays : (t.clients k).pc = .handling := by
    refine Machine.run_invariant (I := fun r ↦ (r.clients k).pc = .handling) ?_ hpc hls hr
    intro r l r' hhandling hl hstep
    rcases TcpServer.clients_step hstep k with hplace | ⟨rfl, -⟩ | ⟨result, rfl, -⟩
    · have hsame : (r'.clients k).pc = (r.clients k).pc := congrArg Prod.fst hplace
      rw [hsame, hhandling]
    · simp [TcpServerLabel.passes] at hl
    · simp [TcpServerLabel.passes] at hl
  exact ⟨hstays, (TcpServer.Inv.of_reachable (h.run hr)).not_returned hstays⟩

/-- The accept thread has been joined, and the first of two clients is idle. -/
theorem stop_waits_for_silent_client_joining : ∃ s t : TcpServer,
    tcpServer.run s [.callStop, .stop, .acceptThread, .stop, .recv 1 (.ok []), .client 1] =
      some t ∧ t.acceptThread = .exited ∧ t.stop ≠ .returned := by
  let enter (k : Nat) : List TcpServerLabel := [.accept, .client k, .acceptThread, .acceptThread]
  let stopping : List TcpServerLabel :=
    [.callStop, .stop, .acceptThread, .stop, .recv 1 (.ok []), .client 1]
  have hrun : (tcpServer.run tcpServer.start (enter 0 ++ enter 1)).map (fun s ↦
      ((s.clients 0).pc, (tcpServer.run s stopping).map TcpServer.acceptThread)) =
      some (.handling, some .exited) := by
    decide +kernel
  obtain ⟨s, hrun, hs⟩ := Option.map_eq_some_iff.mp hrun
  simp only [Prod.mk.injEq] at hs
  obtain ⟨hpc, hstopping⟩ := hs
  obtain ⟨t, ht, hexited⟩ := Option.map_eq_some_iff.mp hstopping
  have hpasses : ∀ l ∈ stopping, l.passes 0 = true := by decide
  obtain ⟨-, hwaits⟩ := stop_waits_for_silent_client s t (Machine.Reachable.run .start hrun) 0 hpc
    stopping hpasses ht
  exact ⟨s, t, ht, hexited, hwaits⟩

end EventStreamCore.Ingest.TcpIngestServer
