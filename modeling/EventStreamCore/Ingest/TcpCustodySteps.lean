import EventStreamCore.Ingest.TcpCustody
import Mathlib.Data.List.Nodup

/-!
# Every step keeps the objects in one place

`acceptConnections`, `cleanupFinishedThreads` and `stop`, `src/core/ingest/tcp.cpp:72–172`, move a
thread object into the list and destroy it.
-/

namespace EventStreamCore.Ingest.TcpIngestServer
open EventStreamCore.Lib EventStreamCore.Events

namespace TcpServer

variable {s t : TcpServer}

/-- A cleanup destroys an object whose thread has been joined. -/
private theorem Custody.erase {k : Nat} {rest : List Nat} (h : s.Custody)
    (hahead : s.acceptThread.ahead = k :: rest) (hjoined : (s.clients k).joinable = false) :
    Custody { s.erase k with acceptThread := .cleaning rest } := by
  obtain ⟨hnodup, hall⟩ := h.ahead
  rw [hahead] at hnodup hall
  have hk : k ∈ s.clientThreads := hall k List.mem_cons_self
  have hok := h.clients k
  have hnone : s.acceptThread.holds = none := by
    cases hpc : s.acceptThread with
    | created j => simp [hpc, AcceptThreadPc.ahead] at hahead
    | _ => rfl
  have hothers : ∀ j, j ≠ k → (s.erase k).clients j = s.clients j :=
    fun j hj ↦ clients_setClient_of_ne _ hj _
  have hmem : ∀ j, j ∈ s.clientThreads.erase k ↔ j ≠ k ∧ j ∈ s.clientThreads :=
    fun j ↦ h.nodup.mem_erase_iff
  have hrunning : s.stop.pastAcceptThread = false := by
    rw [← Bool.not_eq_true]
    intro hpast
    rw [h.stopping hpast] at hahead
    cases hahead
  refine ⟨?_, ?_, h.nodup.erase k, ?_, ?_, ?_, ?_, ?_, ?_, ?_, ?_, ?_, ?_⟩
  · intro j
    by_cases hj : j = k
    · subst hj
      change ((s.erase j).clients j).Ok
      rw [TcpServer.erase, clients_setClient]
      exact ⟨hok.finished, hok.joined, fun _ ↦ hjoined, hok.nonempty, hok.handed, hok.state⟩
    · change ((s.erase k).clients j).Ok
      rw [hothers j hj]
      exact h.clients j
  · intro j hj
    have hborn := (h.listed k hk).1
    change s.accepted ≤ j at hj
    exact (hothers j (by omega)).trans (h.unborn j hj)
  · intro j hj
    obtain ⟨hne, hin⟩ := (hmem j).mp hj
    obtain ⟨hborn, hundestroyed⟩ := h.listed j hin
    refine ⟨hborn, ?_⟩
    change ((s.erase k).clients j).destroyed = false
    rw [hothers j hne]
    exact hundestroyed
  · intro j hj
    cases hj
  · intro j hj
    change ((s.erase k).clients j).destroyed = true ∨ j ∈ s.clientThreads.erase k ∨ _
    by_cases hjk : j = k
    · subst hjk
      left
      rw [TcpServer.erase, clients_setClient]
    · rw [hothers j hjk, hmem j]
      rcases h.somewhere j hj with hdestroyed | hin | hheld
      · exact .inl hdestroyed
      · exact .inr (.inl ⟨hjk, hin⟩)
      · rw [hnone] at hheld
        cases hheld
  · refine ⟨(List.nodup_cons.mp hnodup).2, ?_⟩
    intro j hj
    refine (hmem j).mpr ⟨?_, hall j (List.mem_cons_of_mem _ hj)⟩
    rintro rfl
    exact (List.nodup_cons.mp hnodup).1 hj
  · intro j hj
    cases hj
  · exact fun j hj ↦ absurd hj (StopPc.not_mem_ahead hrunning)
  · intro j hj hpassed
    obtain ⟨hne, hin⟩ := (hmem j).mp hj
    change ((s.erase k).clients j).joinable = false
    rw [hothers j hne]
    exact h.passed j hin hpassed
  · exact fun hpast ↦ absurd hpast (Bool.eq_false_iff.mp hrunning)
  · intro hstop
    have hempty := h.emptied hstop
    rw [hempty] at hk
    cases hk
  · simp [TcpServer.erase, check, setClient, hjoined, h.fault]

/-- The accept thread puts the object into the list. -/
private theorem custody_created {k : Nat} (h : s.Custody) (hpc : s.acceptThread = .created k) :
    Custody { s with clientThreads := s.clientThreads ++ [k], acceptThread := .counting } := by
  obtain ⟨hborn, hnotin, hundestroyed, hjoinable⟩ := h.held k (by rw [hpc]; rfl)
  have hrunning : s.stop.pastAcceptThread = false := by
    rw [← Bool.not_eq_true]
    intro hpast
    have hexited := h.stopping hpast
    rw [hpc] at hexited
    cases hexited
  refine ⟨h.clients, h.unborn, ?_, ?_, ?_, ?_, ?_, ?_, ?_, ?_, ?_, ?_, h.fault⟩
  · rw [List.nodup_append]
    refine ⟨h.nodup, List.nodup_singleton k, ?_⟩
    intro a ha b hb
    rw [List.mem_singleton.mp hb]
    rintro rfl
    exact hnotin ha
  · intro j hj
    rcases List.mem_append.mp hj with hold | hnew
    · exact h.listed j hold
    · rw [List.mem_singleton.mp hnew]
      exact ⟨hborn, hundestroyed⟩
  · intro j hj
    cases hj
  · intro j hj
    rcases h.somewhere j hj with hdestroyed | hin | hheld
    · exact .inl hdestroyed
    · exact .inr (.inl (List.mem_append_left _ hin))
    · rw [hpc] at hheld
      cases hheld
      exact .inr (.inl (List.mem_append_right _ (List.mem_singleton.mpr rfl)))
  · exact ⟨List.nodup_nil, fun j hj ↦ absurd hj List.not_mem_nil⟩
  · intro j hj
    cases hj
  · exact fun j hj ↦ absurd hj (StopPc.not_mem_ahead hrunning)
  · exact fun j _ hpassed ↦ absurd hpassed (StopPc.not_passed hrunning)
  · intro hpast
    exact absurd hpast (Bool.eq_false_iff.mp hrunning)
  · intro hstop
    change s.stop = .returned at hstop
    rw [hstop] at hrunning
    cases hrunning

private theorem custody_stepAcceptThread (h : s.Custody) (ht : s.stepAcceptThread = some t) :
    t.Custody := by
  have hnil : ∀ k ∈ ([] : List Nat), k ∈ s.clientThreads := fun k hk ↦ absurd hk List.not_mem_nil
  have hnone : ∀ k ∈ (none : Option Nat), (s.clients k).finished = true := by
    intro k hk
    cases hk
  unfold stepAcceptThread at ht
  cases hpc : s.acceptThread with
  | accepting =>
    simp only [hpc] at ht
    split at ht <;> cases ht
    · exact h
    · exact h.turn rfl rfl rfl rfl rfl ⟨by rw [hpc]; rfl, rfl⟩ (by simp [hpc])
        ⟨List.nodup_nil, hnil⟩ hnone
  | created k =>
    simp only [hpc] at ht
    cases ht
    exact custody_created h hpc
  | counting =>
    simp only [hpc] at ht
    split at ht <;> cases ht
    · exact h.turn rfl rfl rfl rfl rfl ⟨by rw [hpc]; rfl, rfl⟩ (by simp [hpc])
        ⟨h.nodup, fun k hk ↦ hk⟩ hnone
    · exact h.turn rfl rfl rfl rfl rfl ⟨by rw [hpc]; rfl, rfl⟩ (by simp [hpc])
        ⟨List.nodup_nil, hnil⟩ hnone
  | cleaning rest =>
    obtain ⟨hnodup, hall⟩ := h.ahead
    rw [hpc] at hnodup hall
    cases rest with
    | nil =>
      simp only [hpc] at ht
      cases ht
      exact h.turn rfl rfl rfl rfl rfl ⟨by rw [hpc]; rfl, rfl⟩ (by simp [hpc])
        ⟨List.nodup_nil, hnil⟩ hnone
    | cons k rest =>
      have hrest : ∀ j ∈ rest, j ∈ s.clientThreads :=
        fun j hj ↦ hall j (List.mem_cons_of_mem _ hj)
      simp only [hpc] at ht
      split at ht
      · next hfinished =>
        split at ht <;> cases ht
        · refine h.turn rfl rfl rfl rfl rfl ⟨by rw [hpc]; rfl, rfl⟩ (by simp [hpc])
            ⟨hnodup, hall⟩ ?_
          intro j hj
          cases hj
          exact hfinished
        · next hjoinable => exact h.erase (by rw [hpc]; rfl) (by simpa using hjoinable)
      · cases ht
        exact h.turn rfl rfl rfl rfl rfl ⟨by rw [hpc]; rfl, rfl⟩ (by simp [hpc])
          ⟨(List.nodup_cons.mp hnodup).2, hrest⟩ hnone
  | joining k rest =>
    simp only [hpc] at ht
    split at ht
    · next hreturned =>
      cases ht
      have hk : k ∈ s.clientThreads := h.ahead.2 k (by rw [hpc]; exact List.mem_cons_self)
      have hahead : (s.joined k).acceptThread.ahead = k :: rest := by
        change s.acceptThread.ahead = k :: rest
        rw [hpc]
        rfl
      have hjoined : ((s.joined k).clients k).joinable = false := by
        rw [joined, clients_setClient]
      exact (h.joined hk hreturned).erase hahead hjoined
    · cases ht
  | exited =>
    simp only [hpc] at ht
    cases ht

private theorem custody_accept (h : s.Custody) (hpc : s.acceptThread = .accepting) :
    Custody { s with accepted := s.accepted + 1, acceptThread := .created s.accepted } := by
  have hfresh := h.unborn s.accepted (Nat.le_refl _)
  have hnotin : s.accepted ∉ s.clientThreads :=
    fun hin ↦ absurd (h.listed _ hin).1 (Nat.lt_irrefl _)
  refine ⟨h.clients, ?_, h.nodup, ?_, ?_, ?_, ?_, ?_, h.aheadOfStop, h.passed, ?_, h.emptied,
    h.fault⟩
  · exact fun k hk ↦ h.unborn k (Nat.le_of_succ_le hk)
  · intro k hk
    obtain ⟨hborn, hundestroyed⟩ := h.listed k hk
    exact ⟨Nat.lt_succ_of_lt hborn, hundestroyed⟩
  · intro k hk
    cases hk
    refine ⟨Nat.lt_succ_self _, hnotin, ?_⟩
    change (s.clients s.accepted).destroyed = false ∧ (s.clients s.accepted).joinable = true
    rw [hfresh]
    exact ⟨rfl, rfl⟩
  · intro k hk
    rcases Nat.lt_succ_iff_lt_or_eq.mp hk with hold | rfl
    · rcases h.somewhere k hold with hdestroyed | hin | hheld
      · exact .inl hdestroyed
      · exact .inr (.inl hin)
      · rw [hpc] at hheld
        cases hheld
    · exact .inr (.inr rfl)
  · exact ⟨List.nodup_nil, fun k hk ↦ absurd hk List.not_mem_nil⟩
  · intro k hk
    cases hk
  · intro hpast
    have hexited := h.stopping hpast
    rw [hpc] at hexited
    cases hexited

/-- `stop` clears the list behind its joins. -/
private theorem custody_clearing (h : s.Custody) (hpc : s.stop = .clearing) :
    Custody { s.check (s.clientThreads.all fun k ↦ !(s.clients k).joinable) with
      clients := fun k ↦
        if k ∈ s.clientThreads then { s.clients k with destroyed := true } else s.clients k
      clientThreads := []
      stop := .returned } := by
  have hjoined : ∀ k ∈ s.clientThreads, (s.clients k).joinable = false :=
    fun k hk ↦ h.passed k hk (by rw [hpc]; trivial)
  have hexited : s.acceptThread = .exited := h.stopping (by rw [hpc]; rfl)
  refine ⟨?_, ?_, List.nodup_nil, ?_, ?_, ?_, ?_, ?_, ?_, ?_, fun _ ↦ hexited, fun _ ↦ rfl, ?_⟩
  · intro k
    have hok := h.clients k
    dsimp only
    split
    · next hk =>
      exact ⟨hok.finished, hok.joined, fun _ ↦ hjoined k hk, hok.nonempty, hok.handed, hok.state⟩
    · exact hok
  · intro k hk
    have hnotin : k ∉ s.clientThreads := by
      intro hin
      exact absurd (h.listed k hin).1 (Nat.not_lt.mpr hk)
    dsimp only
    rw [if_neg hnotin]
    exact h.unborn k hk
  · exact fun k hk ↦ absurd hk List.not_mem_nil
  · intro k hk
    change k ∈ s.acceptThread.holds at hk
    rw [hexited] at hk
    cases hk
  · intro k hk
    left
    rcases h.somewhere k hk with hdestroyed | hin | hheld
    · dsimp only
      split
      · rfl
      · exact hdestroyed
    · dsimp only
      rw [if_pos hin]
    · rw [hexited] at hheld
      cases hheld
  · change s.acceptThread.ahead.Nodup ∧ ∀ k ∈ s.acceptThread.ahead, k ∈ ([] : List Nat)
    rw [hexited]
    exact ⟨List.nodup_nil, fun k hk ↦ absurd hk List.not_mem_nil⟩
  · intro k hk
    change k ∈ s.acceptThread.waitsFor at hk
    rw [hexited] at hk
    cases hk
  · exact fun k hk ↦ absurd hk List.not_mem_nil
  · exact fun k hk ↦ absurd hk List.not_mem_nil
  · have hall : (s.clientThreads.all fun k ↦ !(s.clients k).joinable) = true := by
      rw [List.all_eq_true]
      intro k hk
      rw [hjoined k hk]
      rfl
    simp [check, hall, h.fault]

private theorem custody_stepStop (h : s.Custody) (ht : s.stepStop = some t) : t.Custody := by
  have hnil : ∀ k ∈ ([] : List Nat), k ∈ s.clientThreads := fun k hk ↦ absurd hk List.not_mem_nil
  unfold stepStop at ht
  cases hpc : s.stop with
  | notCalled =>
    simp only [hpc] at ht
    cases ht
  | closingServer =>
    simp only [hpc] at ht
    cases ht
    exact h.stopTurn rfl rfl rfl rfl rfl hnil (fun k _ hpassed ↦ absurd hpassed id)
      (fun hpast ↦ by cases hpast) (by simp)
  | joiningAcceptThread =>
    simp only [hpc] at ht
    split at ht
    · next hexited =>
      cases ht
      exact h.stopTurn rfl rfl rfl rfl rfl (fun k hk ↦ hk) (fun k hk hpassed ↦ absurd hk hpassed)
        (fun _ ↦ hexited) (by simp)
    · cases ht
  | joiningClients rest =>
    have hexited : s.acceptThread = .exited := h.stopping (by rw [hpc]; rfl)
    have hahead := h.aheadOfStop
    rw [hpc] at hahead
    have hbehind : ∀ k ∈ s.clientThreads, k ∉ rest → (s.clients k).joinable = false := by
      intro k hk hnotin
      apply h.passed k hk
      rw [hpc]
      exact hnotin
    cases rest with
    | nil =>
      simp only [hpc] at ht
      cases ht
      exact h.stopTurn rfl rfl rfl rfl rfl hnil
        (fun k hk _ ↦ hbehind k hk List.not_mem_nil) (fun _ ↦ hexited) (by simp)
    | cons j rest =>
      have hj : j ∈ s.clientThreads := hahead j List.mem_cons_self
      have hrest : ∀ k ∈ rest, k ∈ s.clientThreads :=
        fun k hk ↦ hahead k (List.mem_cons_of_mem _ hk)
      simp only [hpc] at ht
      split at ht
      · split at ht
        · next hreturned =>
          cases ht
          refine (h.joined hj hreturned).stopTurn rfl rfl rfl rfl rfl hrest ?_ (fun _ ↦ hexited)
            (by simp)
          intro k hk hnotin
          by_cases hkj : k = j
          · rw [hkj, TcpServer.joined, clients_setClient]
          · rw [TcpServer.joined, clients_setClient_of_ne _ hkj]
            exact hbehind k hk (List.not_mem_cons_of_ne_of_not_mem hkj hnotin)
        · cases ht
      · next hjoinable =>
        cases ht
        refine h.stopTurn rfl rfl rfl rfl rfl hrest ?_ (fun _ ↦ hexited) (by simp)
        intro k hk hnotin
        by_cases hkj : k = j
        · rw [hkj]
          simpa using hjoinable
        · exact hbehind k hk (List.not_mem_cons_of_ne_of_not_mem hkj hnotin)
  | clearing =>
    simp only [hpc] at ht
    cases ht
    exact custody_clearing h hpc
  | returned =>
    simp only [hpc] at ht
    cases ht

/-- Every step keeps every object in one place. -/
theorem Custody.step {l : TcpServerLabel} (h : s.Custody) (ht : s.step l = some t) :
    t.Custody := by
  cases l with
  | accept =>
    rw [TcpServer.step] at ht
    split at ht <;> cases ht
    next hok => exact custody_accept h hok.1
  | acceptThread => exact custody_stepAcceptThread h ht
  | recv k result =>
    rw [TcpServer.step] at ht
    split at ht <;> cases ht
    next hok => exact custody_recv h hok.1 hok.2 result
  | client k =>
    rw [TcpServer.step] at ht
    split at ht
    · next hk => exact h.of_clientMoves (clientMoves_stepClient h hk ht)
    · cases ht
  | callStop =>
    rw [TcpServer.step] at ht
    split at ht <;> cases ht
    refine h.stopTurn rfl rfl rfl rfl rfl ?_ (fun k _ hpassed ↦ absurd hpassed id)
      (fun hpast ↦ by cases hpast) (by simp)
    exact fun k hk ↦ absurd hk List.not_mem_nil
  | stop => exact custody_stepStop h ht

end TcpServer
end EventStreamCore.Ingest.TcpIngestServer
