import EventStreamCore.Ingest.TcpCustodySteps
import EventStreamCore.Lib.Tally

/-!
# The counters of connections

`activeConnections_` and `totalConnectionsAccepted_` of `TcpIngestServer`,
`src/core/ingest/tcp.cpp:72–274`, through every step.
-/

namespace EventStreamCore.Ingest.TcpIngestServer
open EventStreamCore.Lib EventStreamCore.Events

namespace TcpServer

/-- `activeConnections_` is the number of clients between the accesses of their threads to it, and
`totalConnectionsAccepted_` the number of connections but for one in the hands of the accept
thread, modulo their range. -/
structure Counted (s : TcpServer) : Prop where
  active : s.activeConnections.toNat =
    tally ClientThread.counted s.clients s.accepted % 2 ^ 64
  total : (s.totalConnectionsAccepted.toNat + s.acceptThread.uncounted) % 2 ^ 64 =
    s.accepted % 2 ^ 64

variable {s t : TcpServer}

/-- A step that changes no client's part in the counter. -/
private theorem Counted.of_eq (h : s.Counted) (haccepted : t.accepted = s.accepted)
    (hactive : t.activeConnections = s.activeConnections)
    (hclients : ∀ k < s.accepted, (t.clients k).counted = (s.clients k).counted)
    (htotal : t.totalConnectionsAccepted = s.totalConnectionsAccepted)
    (huncounted : t.acceptThread.uncounted = s.acceptThread.uncounted) : t.Counted := by
  refine ⟨?_, ?_⟩
  · rw [hactive, haccepted, h.active, tally_congr hclients]
  · rw [htotal, huncounted, haccepted]
    exact h.total

private theorem counted_setClient {j k : Nat} {c : ClientThread}
    (h : c.counted = (s.clients k).counted) :
    ((s.setClient k c).clients j).counted = (s.clients j).counted := by
  by_cases hj : j = k
  · rw [hj, clients_setClient, h]
  · rw [clients_setClient_of_ne _ hj]

private theorem counted_stepClient {k : Nat} (h : s.Counted) (hk : k < s.accepted)
    (ht : s.stepClient k = some t) : t.Counted := by
  have hlt : s.activeConnections.toNat < 2 ^ 64 := s.activeConnections.toNat_lt
  have hactive := h.active
  unfold stepClient at ht
  cases hpc : (s.clients k).pc with
  | starting =>
    simp only [hpc] at ht
    cases ht
    refine ⟨?_, h.total⟩
    have hupdate := tally_update (w := ClientThread.counted) (f := s.clients) hk
      { s.clients k with pc := .handling }
    have hone : ClientThread.counted { s.clients k with pc := .handling } = 1 := rfl
    have hzero : (s.clients k).counted = 0 := by simp [ClientThread.counted, hpc]
    rw [hone, hzero] at hupdate
    change (s.activeConnections + 1).toNat = tally ClientThread.counted
      (Function.update s.clients k { s.clients k with pc := .handling }) s.accepted % 2 ^ 64
    rw [UInt64.toNat_add]
    change (s.activeConnections.toNat + 1) % 2 ^ 64 = _
    omega
  | handling =>
    simp only [hpc] at ht
    split at ht <;> cases ht
    refine h.of_eq rfl rfl (fun j _ ↦ counted_setClient ?_) rfl rfl
    simp [ClientThread.counted, hpc]
  | closing =>
    simp only [hpc] at ht
    cases ht
    refine h.of_eq rfl rfl (fun j _ ↦ counted_setClient ?_) rfl rfl
    simp [ClientThread.counted, hpc]
  | uncounting =>
    simp only [hpc] at ht
    cases ht
    refine ⟨?_, h.total⟩
    have hupdate := tally_update (w := ClientThread.counted) (f := s.clients) hk
      { s.clients k with pc := .finishing }
    have hzero : ClientThread.counted { s.clients k with pc := .finishing } = 0 := rfl
    have hone : (s.clients k).counted = 1 := by simp [ClientThread.counted, hpc]
    rw [hzero, hone] at hupdate
    change (s.activeConnections - 1).toNat = tally ClientThread.counted
      (Function.update s.clients k { s.clients k with pc := .finishing }) s.accepted % 2 ^ 64
    rw [UInt64.toNat_sub]
    change (2 ^ 64 - 1 + s.activeConnections.toNat) % 2 ^ 64 = _
    omega
  | finishing =>
    simp only [hpc] at ht
    cases ht
    refine h.of_eq rfl rfl (fun j _ ↦ ?_) rfl rfl
    change ((s.setClient k _).clients j).counted = _
    apply counted_setClient
    simp [ClientThread.counted, hpc]
  | returning =>
    simp only [hpc] at ht
    cases ht
    refine h.of_eq rfl rfl (fun j _ ↦ counted_setClient ?_) rfl rfl
    simp [ClientThread.counted, hpc]
  | returned =>
    simp only [hpc] at ht
    cases ht

private theorem counted_afterRecv {c : ClientThread} (hpc : c.pc = .handling) (result : Recv) :
    (afterRecv c result).counted = c.counted := by
  have hone : c.counted = 1 := by simp [ClientThread.counted, hpc]
  rw [hone]
  cases result with
  | error e => rfl
  | ok chunk =>
    cases chunk with
    | nil => rfl
    | cons b bs =>
      rw [afterRecv]
      split
      · rfl
      · simp [ClientThread.counted, hpc]

private theorem counted_erase (s : TcpServer) (j k : Nat) :
    ((s.erase k).clients j).counted = (s.clients j).counted :=
  counted_setClient rfl

private theorem counted_joined (s : TcpServer) (j k : Nat) :
    ((s.joined k).clients j).counted = (s.clients j).counted :=
  counted_setClient rfl

private theorem counted_stepAcceptThread (h : s.Counted) (ht : s.stepAcceptThread = some t) :
    t.Counted := by
  have hsame : ∀ k < s.accepted, (s.clients k).counted = (s.clients k).counted := fun _ _ ↦ rfl
  unfold stepAcceptThread at ht
  cases hpc : s.acceptThread with
  | accepting =>
    simp only [hpc] at ht
    split at ht <;> cases ht
    · exact h
    · exact h.of_eq rfl rfl hsame rfl (by rw [hpc]; rfl)
  | created k =>
    simp only [hpc] at ht
    cases ht
    exact h.of_eq rfl rfl hsame rfl (by rw [hpc]; rfl)
  | counting =>
    have htotal : ((s.totalConnectionsAccepted + 1).toNat + 0) % 2 ^ 64 = s.accepted % 2 ^ 64 := by
      have hold := h.total
      rw [hpc] at hold
      simp only [AcceptThreadPc.uncounted] at hold
      rw [UInt64.toNat_add]
      change ((s.totalConnectionsAccepted.toNat + 1) % 2 ^ 64 + 0) % 2 ^ 64 = _
      omega
    simp only [hpc] at ht
    split at ht <;> cases ht
    · exact ⟨h.active, htotal⟩
    · exact ⟨h.active, htotal⟩
  | cleaning rest =>
    cases rest with
    | nil =>
      simp only [hpc] at ht
      cases ht
      exact h.of_eq rfl rfl hsame rfl (by rw [hpc]; rfl)
    | cons k rest =>
      simp only [hpc] at ht
      split at ht
      · split at ht <;> cases ht
        · exact h.of_eq rfl rfl hsame rfl (by rw [hpc]; rfl)
        · exact h.of_eq rfl rfl (fun j _ ↦ s.counted_erase j k) rfl (by rw [hpc]; rfl)
      · cases ht
        exact h.of_eq rfl rfl hsame rfl (by rw [hpc]; rfl)
  | joining k rest =>
    simp only [hpc] at ht
    split at ht <;> cases ht
    refine h.of_eq rfl rfl (fun j _ ↦ ?_) rfl (by rw [hpc]; rfl)
    exact ((s.joined k).counted_erase j k).trans (s.counted_joined j k)
  | exited =>
    simp only [hpc] at ht
    cases ht

private theorem counted_stepStop (h : s.Counted) (ht : s.stepStop = some t) : t.Counted := by
  have hsame : ∀ k < s.accepted, (s.clients k).counted = (s.clients k).counted := fun _ _ ↦ rfl
  unfold stepStop at ht
  split at ht
  · cases ht
  · cases ht
    exact h.of_eq rfl rfl hsame rfl rfl
  · split at ht <;> cases ht
    exact h.of_eq rfl rfl hsame rfl rfl
  · cases ht
    exact h.of_eq rfl rfl hsame rfl rfl
  · next k rest hpc =>
    split at ht
    · split at ht <;> cases ht
      exact h.of_eq rfl rfl (fun j _ ↦ s.counted_joined j k) rfl rfl
    · cases ht
      exact h.of_eq rfl rfl hsame rfl rfl
  · cases ht
    refine h.of_eq rfl rfl (fun k _ ↦ ?_) rfl rfl
    dsimp only
    split <;> rfl
  · cases ht

/-- Every step keeps the counters. -/
theorem Counted.step {l : TcpServerLabel} (h : s.Counted) (hc : s.Custody)
    (ht : s.step l = some t) : t.Counted := by
  cases l with
  | accept =>
    rw [TcpServer.step] at ht
    split at ht <;> cases ht
    next hok =>
    refine ⟨?_, ?_⟩
    · change s.activeConnections.toNat =
        tally ClientThread.counted s.clients (s.accepted + 1) % 2 ^ 64
      rw [tally_succ, hc.unborn s.accepted (Nat.le_refl _)]
      exact h.active
    · have htotal := h.total
      rw [hok.1] at htotal
      change (s.totalConnectionsAccepted.toNat + 1) % 2 ^ 64 = (s.accepted + 1) % 2 ^ 64
      simp only [AcceptThreadPc.uncounted] at htotal
      omega
  | acceptThread => exact counted_stepAcceptThread h ht
  | recv k result =>
    rw [TcpServer.step] at ht
    split at ht <;> cases ht
    next hok =>
    exact h.of_eq rfl rfl (fun j _ ↦ counted_setClient (counted_afterRecv hok.2 result)) rfl rfl
  | client k =>
    rw [TcpServer.step] at ht
    split at ht
    · next hk => exact counted_stepClient h hk ht
    · cases ht
  | callStop =>
    rw [TcpServer.step] at ht
    split at ht <;> cases ht
    exact h.of_eq rfl rfl (fun _ _ ↦ rfl) rfl rfl
  | stop => exact counted_stepStop h ht

end TcpServer
end EventStreamCore.Ingest.TcpIngestServer
