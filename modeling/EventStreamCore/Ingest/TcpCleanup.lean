import EventStreamCore.Ingest.TcpCustodySteps

/-!
# What the cleanup leaves in the list

`cleanupFinishedThreads`, `src/core/ingest/tcp.cpp:108–122`, which the accept thread calls every ten
connections, takes out what had finished when it began.
-/

namespace EventStreamCore.Ingest.TcpIngestServer
open EventStreamCore.Lib EventStreamCore.Events

namespace AcceptThreadPc

/-- A cleanup is under way. -/
def cleans : AcceptThreadPc → Bool
  | .cleaning _ => true
  | .joining _ _ => true
  | _ => false

theorem ahead_of_not_cleans {pc : AcceptThreadPc} (h : pc.cleans = false) : pc.ahead = [] := by
  cases pc with
  | cleaning rest => cases h
  | joining k rest => cases h
  | _ => rfl

end AcceptThreadPc

namespace TcpServer

/-- The entries made since the last cleanup began, at most. -/
def recent (s : TcpServer) : Nat :=
  match s.acceptThread with
  | .cleaning _ => 0
  | .joining _ _ => 0
  | .counting => s.connectionsSinceCleanup + 1
  | _ => s.connectionsSinceCleanup

/-- A client that had finished when the last cleanup began has been taken out of the list or is
ahead of the cleanup, and the other entries are those that had not, and the recent ones. -/
structure Cleaned (s : TcpServer) : Prop where
  fresh : ∀ k, s.accepted ≤ k ∨ k ∈ s.acceptThread.holds → s.stale k = false
  finished : ∀ k, s.stale k = true → (s.clients k).finished = true
  ahead : ∀ k ∈ s.clientThreads, s.stale k = true → k ∈ s.acceptThread.ahead
  live : (s.clientThreads.countP fun k ↦ !s.stale k) ≤ s.served + s.recent
  interval : s.acceptThread.cleans = false → s.connectionsSinceCleanup < kCleanupInterval

variable {s t : TcpServer}

/-- A step of a client's thread or of `stop` that leaves list and cleanup alone. -/
private theorem Cleaned.of_eq (h : s.Cleaned) (haccepted : t.accepted = s.accepted)
    (hacceptThread : t.acceptThread = s.acceptThread) (hthreads : t.clientThreads = s.clientThreads)
    (hsince : t.connectionsSinceCleanup = s.connectionsSinceCleanup)
    (hhistory : t.served = s.served ∧ t.stale = s.stale)
    (hfinished : ∀ k, (s.clients k).finished = true → (t.clients k).finished = true) :
    t.Cleaned := by
  have hrecent : t.recent = s.recent := by
    rw [recent, recent, hacceptThread, hsince]
  refine ⟨?_, ?_, ?_, ?_, ?_⟩
  · rw [haccepted, hacceptThread, hhistory.2]
    exact h.fresh
  · rw [hhistory.2]
    exact fun k hk ↦ hfinished k (h.finished k hk)
  · rw [hthreads, hhistory.2, hacceptThread]
    exact h.ahead
  · rw [hthreads, hhistory.2, hhistory.1, hrecent]
    exact h.live
  · rw [hacceptThread, hsince]
    exact h.interval

private theorem finished_setClient {k : Nat} {c : ClientThread}
    (h : (s.clients k).finished = true → c.finished = true) (j : Nat)
    (hj : (s.clients j).finished = true) : ((s.setClient k c).clients j).finished = true := by
  by_cases hjk : j = k
  · subst hjk
    rw [clients_setClient]
    exact h hj
  · rw [clients_setClient_of_ne _ hjk]
    exact hj

private theorem finished_joined (s : TcpServer) (j k : Nat) :
    ((s.joined k).clients j).finished = (s.clients j).finished := by
  by_cases hj : j = k
  · rw [hj, joined, clients_setClient]
  · rw [joined, clients_setClient_of_ne _ hj]

private theorem finished_erase (s : TcpServer) (j k : Nat) :
    ((s.erase k).clients j).finished = (s.clients j).finished := by
  by_cases hj : j = k
  · rw [hj, erase, clients_setClient]
  · exact congrArg ClientThread.finished (clients_setClient_of_ne _ hj _)

/-- An entry less ahead of a cleanup, and perhaps in the list. -/
private theorem Cleaned.advance (h : s.Cleaned) {k : Nat} {rest : List Nat}
    (hpc : s.acceptThread.ahead = k :: rest) (hrecent : s.recent = 0)
    (hholds : s.acceptThread.holds = none)
    (hacceptThread : t.acceptThread = .cleaning rest) (haccepted : t.accepted = s.accepted)
    (hhistory : t.served = s.served ∧ t.stale = s.stale)
    (hfinished : ∀ j, (s.clients j).finished = true → (t.clients j).finished = true)
    (hthreads : t.clientThreads.Sublist s.clientThreads)
    (hk : k ∈ t.clientThreads → s.stale k = false) : t.Cleaned := by
  refine ⟨?_, ?_, ?_, ?_, ?_⟩
  · intro j hj
    rw [hhistory.2]
    apply h.fresh j
    rw [hacceptThread, haccepted] at hj
    rw [hholds]
    exact hj
  · rw [hhistory.2]
    exact fun j hj ↦ hfinished j (h.finished j hj)
  · intro j hj hstale
    rw [hhistory.2] at hstale
    have hold := h.ahead j (hthreads.subset hj) hstale
    rw [hpc] at hold
    rw [hacceptThread]
    rcases List.mem_cons.mp hold with rfl | hrest
    · rw [hk hj] at hstale
      cases hstale
    · exact hrest
  · have hlive := h.live
    have hle := hthreads.countP_le (p := fun j ↦ !s.stale j)
    rw [hrecent] at hlive
    rw [hhistory.1, hhistory.2, recent, hacceptThread]
    omega
  · intro hcleans
    rw [hacceptThread] at hcleans
    cases hcleans

private theorem cleaned_stepAcceptThread (h : s.Cleaned) (hc : s.Custody)
    (ht : s.stepAcceptThread = some t) : t.Cleaned := by
  unfold stepAcceptThread at ht
  cases hpc : s.acceptThread with
  | accepting =>
    have hfresh := h.fresh
    have hahead := h.ahead
    have hlive := h.live
    have hinterval := h.interval
    rw [hpc] at hfresh hahead hinterval
    rw [recent, hpc] at hlive
    simp only [hpc] at ht
    split at ht <;> cases ht
    · exact h
    · exact ⟨hfresh, h.finished, hahead, hlive, hinterval⟩
  | created k =>
    have hfresh := h.fresh
    have hahead := h.ahead
    have hlive := h.live
    have hinterval := h.interval
    rw [hpc] at hfresh hahead hinterval
    rw [recent, hpc] at hlive
    simp only [hpc] at ht
    cases ht
    have hstale : s.stale k = false := hfresh k (.inr rfl)
    change _ ≤ s.served + s.connectionsSinceCleanup at hlive
    refine ⟨?_, h.finished, ?_, ?_, hinterval⟩
    · intro j hj
      exact hfresh j (.inl (hj.resolve_right fun hheld ↦ by cases hheld))
    · intro j hj hjs
      rcases List.mem_append.mp hj with hold | hnew
      · exact hahead j hold hjs
      · rw [List.mem_singleton.mp hnew, hstale] at hjs
        cases hjs
    · change ((s.clientThreads ++ [k]).countP fun j ↦ !s.stale j) ≤
        s.served + (s.connectionsSinceCleanup + 1)
      rw [List.countP_append, List.countP_singleton]
      simp only [hstale, Bool.not_false, if_true]
      omega
  | counting =>
    have hfresh := h.fresh
    have hahead := h.ahead
    have hlive := h.live
    have hinterval := h.interval
    rw [hpc] at hfresh hahead hinterval
    rw [recent, hpc] at hlive
    simp only [hpc] at ht
    split at ht <;> cases ht
    · refine ⟨?_, fun k hk ↦ hk, fun k hk _ ↦ hk, Nat.le_add_right _ _, ?_⟩
      · intro k hk
        have hborn : s.accepted ≤ k := hk.resolve_right fun hheld ↦ by cases hheld
        change (s.clients k).finished = false
        rw [hc.unborn k hborn]
        rfl
      · intro hcleans
        cases hcleans
    · next hfew => exact ⟨hfresh, h.finished, hahead, hlive, fun _ ↦ Nat.lt_of_not_ge hfew⟩
  | cleaning rest =>
    cases rest with
    | nil =>
      have hfresh := h.fresh
      have hahead := h.ahead
      have hlive := h.live
      rw [hpc] at hfresh hahead
      rw [recent, hpc] at hlive
      simp only [hpc] at ht
      cases ht
      exact ⟨hfresh, h.finished, hahead, hlive, fun _ ↦ Nat.zero_lt_succ 9⟩
    | cons k rest =>
      have hrecent : s.recent = 0 := by rw [recent, hpc]
      have hholds : s.acceptThread.holds = none := by rw [hpc]; rfl
      have hahead : s.acceptThread.ahead = k :: rest := by rw [hpc]; rfl
      have hnodup := hc.nodup
      simp only [hpc] at ht
      split at ht
      · split at ht <;> cases ht
        · have hfresh := h.fresh
          have hold := h.ahead
          have hlive := h.live
          rw [hpc] at hfresh hold
          rw [recent, hpc] at hlive
          exact ⟨hfresh, h.finished, hold, hlive, fun hcleans ↦ by cases hcleans⟩
        · refine h.advance hahead hrecent hholds rfl rfl ⟨rfl, rfl⟩ ?_ List.erase_sublist ?_
          · exact fun j hj ↦ (s.finished_erase j k).trans hj
          · intro hin
            exact absurd rfl (hnodup.mem_erase_iff.mp hin).1
      · next hlive =>
        cases ht
        refine h.advance hahead hrecent hholds rfl rfl ⟨rfl, rfl⟩ (fun _ hj ↦ hj)
          (List.Sublist.refl _) ?_
        intro _
        rw [← Bool.not_eq_true]
        exact fun hstale ↦ hlive (h.finished k hstale)
  | joining k rest =>
    have hrecent : s.recent = 0 := by rw [recent, hpc]
    have hholds : s.acceptThread.holds = none := by rw [hpc]; rfl
    have hahead : s.acceptThread.ahead = k :: rest := by rw [hpc]; rfl
    have hnodup := hc.nodup
    simp only [hpc] at ht
    split at ht <;> cases ht
    refine h.advance hahead hrecent hholds rfl rfl ⟨rfl, rfl⟩ ?_ List.erase_sublist ?_
    · intro j hj
      exact ((s.joined k).finished_erase j k).trans ((s.finished_joined j k).trans hj)
    · intro hin
      exact absurd rfl (hnodup.mem_erase_iff.mp hin).1
  | exited =>
    simp only [hpc] at ht
    cases ht

private theorem cleaned_stepStop (h : s.Cleaned) (ht : s.stepStop = some t) : t.Cleaned := by
  unfold stepStop at ht
  split at ht
  · cases ht
  · cases ht
    exact h.of_eq rfl rfl rfl rfl ⟨rfl, rfl⟩ fun _ hk ↦ hk
  · split at ht <;> cases ht
    exact h.of_eq rfl rfl rfl rfl ⟨rfl, rfl⟩ fun _ hk ↦ hk
  · cases ht
    exact h.of_eq rfl rfl rfl rfl ⟨rfl, rfl⟩ fun _ hk ↦ hk
  · split at ht
    · split at ht <;> cases ht
      exact h.of_eq rfl rfl rfl rfl ⟨rfl, rfl⟩ fun j hj ↦ (s.finished_joined j _).trans hj
    · cases ht
      exact h.of_eq rfl rfl rfl rfl ⟨rfl, rfl⟩ fun _ hk ↦ hk
  · cases ht
    refine ⟨h.fresh, ?_, fun k hk ↦ absurd hk List.not_mem_nil, Nat.zero_le _, h.interval⟩
    intro k hk
    dsimp only
    split <;> exact h.finished k hk
  · cases ht

/-- Every step keeps the list clean. -/
theorem Cleaned.step {l : TcpServerLabel} (h : s.Cleaned) (hc : s.Custody)
    (ht : s.step l = some t) : t.Cleaned := by
  cases l with
  | accept =>
    rw [TcpServer.step] at ht
    split at ht <;> cases ht
    next hok =>
    have hahead := h.ahead
    have hlive := h.live
    have hinterval := h.interval
    rw [hok.1] at hahead hinterval
    rw [recent, hok.1] at hlive
    refine ⟨?_, h.finished, hahead, hlive, hinterval⟩
    intro k hk
    rcases hk with hborn | hheld
    · exact h.fresh k (.inl (Nat.le_of_succ_le hborn))
    · cases hheld
      exact h.fresh s.accepted (.inl (Nat.le_refl _))
  | acceptThread => exact cleaned_stepAcceptThread h hc ht
  | recv k result =>
    rw [TcpServer.step] at ht
    split at ht <;> cases ht
    next hok =>
    refine h.of_eq rfl rfl rfl rfl ⟨rfl, rfl⟩ (finished_setClient fun hfinished ↦ ?_)
    have hpc := (hc.clients k).finished.mp hfinished
    simp [hok.2] at hpc
  | client k =>
    rw [TcpServer.step] at ht
    split at ht
    · next hk =>
      have hm := clientMoves_stepClient hc hk ht
      have hframe : t.connectionsSinceCleanup = s.connectionsSinceCleanup ∧ t.served = s.served ∧
          t.stale = s.stale := by
        unfold stepClient at ht
        cases hpc : (s.clients k).pc with
        | handling =>
          simp only [hpc] at ht
          split at ht <;> cases ht
          exact ⟨rfl, rfl, rfl⟩
        | returned =>
          simp only [hpc] at ht
          cases ht
        | _ =>
          simp only [hpc] at ht
          cases ht
          exact ⟨rfl, rfl, rfl⟩
      refine h.of_eq hm.accepted hm.acceptThread hm.clientThreads hframe.1 hframe.2 ?_
      intro j hj
      by_cases hjk : j = k
      · subst hjk
        exact hm.client.2.2.2 hj
      · rw [hm.others j hjk]
        exact hj
    · cases ht
  | callStop =>
    rw [TcpServer.step] at ht
    split at ht <;> cases ht
    exact h.of_eq rfl rfl rfl rfl ⟨rfl, rfl⟩ fun _ hk ↦ hk
  | stop => exact cleaned_stepStop h ht

end TcpServer
end EventStreamCore.Ingest.TcpIngestServer
