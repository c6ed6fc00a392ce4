import EventStreamCore.Ingest.EpollAcceptor

/-!
# Every connection by itself

What `handleRead`, `src/core/ingest/epoll.cpp:328–475`, has handed over of a connection comes from
that connection's own chunks, through every step of the threads.
-/

namespace EventStreamCore.Ingest.EpollIngestServer
open EventStreamCore.Lib EventStreamCore.Events

/-! ### One more chunk -/

theorem connectionAfter_concat (state : ConnectionState) (chunks : List Bytes) (chunk : Bytes) :
    connectionAfter state (chunks ++ [chunk]) =
      (processBuffer { connectionAfter state chunks with
        buffer := (connectionAfter state chunks).buffer ++ chunk }).2 := by
  simp only [connectionAfter, List.foldl_append, List.foldl_cons, List.foldl_nil]

/-- What `handleRead` hands over at the last of some chunks. -/
theorem handleRead_concat {chunks : List Bytes} (hne : ∀ c ∈ chunks, c ≠ []) {chunk : Bytes}
    (hchunk : chunk ≠ []) (state : ConnectionState) :
    (handleRead state ((chunks ++ [chunk]).map .ok)).1 =
      (handleRead state (chunks.map .ok)).1 ++
        (processBuffer { connectionAfter state chunks with
          buffer := (connectionAfter state chunks).buffer ++ chunk }).1 := by
  induction chunks generalizing state with
  | nil =>
    change (handleRead state [.ok chunk]).1 = _
    rw [handleRead_data state hchunk]
    change _ ++ [] = [] ++ _
    rw [List.append_nil]
    rfl
  | cons c chunks ih =>
    have hc : c ≠ [] := hne c List.mem_cons_self
    have hrest : ∀ c' ∈ chunks, c' ≠ [] := fun c' h ↦ hne c' (List.mem_cons_of_mem _ h)
    rw [List.cons_append, List.map_cons, List.map_cons, handleRead_data state hc,
      handleRead_data state hc, ih hrest, List.append_assoc]
    rfl

/-- What nothing has been read from is not in the table yet. -/
theorem AcceptorPc.mem_unlisted_of_fresh {pc : AcceptorPc} {fd : Fd} (h : fd ∈ pc.fresh) :
    fd ∈ pc.unlisted := by
  cases pc with
  | accepted fd' => exact h
  | registering fd' => exact h
  | _ => cases h

namespace EpollServer

/-! ### The connections -/

/-- No two descriptors stand for one connection, what was handed over of a connection is what
`handleRead` makes of its own chunks, and its entry is in the state they leave. -/
structure Framed (s : EpollServer) : Prop where
  inj : ∀ fd fd' k, s.openFds fd = some k → s.openFds fd' = some k → fd = fd'
  old : ∀ fd k, s.openFds fd = some k → k < s.arrivals
  later : ∀ k, s.arrivals ≤ k → s.received k = []
  nonempty : ∀ k, ∀ c ∈ s.received k, c ≠ []
  handed : ∀ k, s.handed k = (handleRead .initial ((s.received k).map .ok)).1
  state : ∀ fd k state, s.openFds fd = some k → s.connections.lookup fd = some state →
    state = connectionAfter .initial (s.received k)
  fresh : ∀ fd ∈ s.acceptor.fresh, ∀ k, s.openFds fd = some k → s.received k = []

variable {numWorkers : Nat} {s t : EpollServer}

/-- A step that reads nothing and adds neither a descriptor nor an entry. -/
private theorem Framed.of_le (h : s.Framed) (harrivals : t.arrivals = s.arrivals)
    (hreceived : t.received = s.received) (hhanded : t.handed = s.handed)
    (hopen : ∀ fd k, t.openFds fd = some k → s.openFds fd = some k)
    (hconnections : ∀ fd state, t.connections.lookup fd = some state →
      s.connections.lookup fd = some state)
    (hfresh : ∀ fd ∈ t.acceptor.fresh, fd ∈ s.acceptor.fresh) : t.Framed := by
  refine ⟨?_, ?_, ?_, ?_, ?_, ?_, ?_⟩
  · exact fun fd fd' k hfd hfd' ↦ h.inj fd fd' k (hopen fd k hfd) (hopen fd' k hfd')
  · intro fd k hfd
    rw [harrivals]
    exact h.old fd k (hopen fd k hfd)
  · rw [harrivals, hreceived]
    exact h.later
  · rw [hreceived]
    exact h.nonempty
  · rw [hreceived, hhanded]
    exact h.handed
  · intro fd k state hfd hstate
    rw [hreceived]
    exact h.state fd k state (hopen fd k hfd) (hconnections fd state hstate)
  · intro fd hin k hfd
    rw [hreceived]
    exact h.fresh fd (hfresh fd hin) k (hopen fd k hfd)

private theorem openFds_closeFd {fd fd' : Fd} {k : Nat}
    (h : (s.closeFd fd).openFds fd' = some k) : s.openFds fd' = some k := by
  by_cases hne : fd' = fd
  · subst hne
    simp [closeFd] at h
  · change Function.update s.openFds fd none fd' = some k at h
    rwa [Function.update_of_ne hne] at h

private theorem lookup_eraseConnection {fd fd' : Fd} {state : ConnectionState}
    (h : (s.eraseConnection fd).connections.lookup fd' = some state) :
    s.connections.lookup fd' = some state := by
  by_cases hne : fd' = fd
  · subst hne
    simp [eraseConnection] at h
  · rwa [eraseConnection, AList.lookup_erase_ne hne] at h

private theorem framed_stepWorker {i : Nat} (h : s.Framed) (ht : s.stepWorker i = some t) :
    t.Framed := by
  have hopens : ∀ fd k, s.openFds fd = some k → s.openFds fd = some k := fun _ _ hk ↦ hk
  have hlookups : ∀ fd state, s.connections.lookup fd = some state →
      s.connections.lookup fd = some state := fun _ _ hstate ↦ hstate
  have hfresh : ∀ fd ∈ s.acceptor.fresh, fd ∈ s.acceptor.fresh := fun _ hfd ↦ hfd
  unfold stepWorker at ht
  split at ht
  · split at ht <;> cases ht <;> exact h.of_le rfl rfl rfl hopens hlookups hfresh
  · cases ht
    exact h.of_le rfl rfl rfl hopens hlookups hfresh
  · split at ht
    · cases ht
      exact h.of_le rfl rfl rfl hopens hlookups hfresh
    · split at ht
      · split at ht <;> cases ht <;> exact h.of_le rfl rfl rfl hopens hlookups hfresh
      · cases ht
        exact h.of_le rfl rfl rfl hopens hlookups hfresh
  · cases ht
  · cases ht
    exact h.of_le rfl rfl rfl hopens hlookups hfresh
  · cases ht
    exact h.of_le rfl rfl rfl hopens (fun fd state ↦ lookup_eraseConnection) hfresh
  · cases ht
    exact h.of_le rfl rfl rfl (fun fd k ↦ openFds_closeFd) hlookups hfresh
  · cases ht
    exact h.of_le rfl rfl rfl hopens hlookups hfresh
  · cases ht

/-- A new entry is in the state no chunks leave. -/
private theorem framed_registering {fd : Fd} (h : s.Framed) (hsound : s.Sound numWorkers)
    (hpc : s.acceptor = .registering fd) :
    Framed { s.emplaceConnection fd with acceptor := .adding fd } := by
  have hnotin : fd ∉ s.connections := (hsound.unlisted fd (by rw [hpc]; rfl)).2.1
  have hconnections : (s.emplaceConnection fd).connections =
      s.connections.insert fd .initial := by
    simp [emplaceConnection, AList.lookup_eq_none.mpr hnotin]
  refine ⟨h.inj, h.old, h.later, h.nonempty, h.handed, ?_, ?_⟩
  · intro fd' k state hfd' hstate
    change (s.emplaceConnection fd).connections.lookup fd' = some state at hstate
    rw [hconnections] at hstate
    by_cases hne : fd' = fd
    · subst hne
      rw [AList.lookup_insert] at hstate
      cases hstate
      have hempty : s.received k = [] := h.fresh fd' (by rw [hpc]; rfl) k hfd'
      change ConnectionState.initial = connectionAfter .initial (s.received k)
      rw [hempty]
      rfl
    · rw [AList.lookup_insert_ne hne] at hstate
      exact h.state fd' k state hfd' hstate
  · intro fd' hfd'
    cases hfd'

private theorem framed_stepAcceptor {ok : Bool} (h : s.Framed) (hsound : s.Sound numWorkers)
    (ht : s.stepAcceptor numWorkers ok = some t) : t.Framed := by
  have hopens : ∀ fd k, s.openFds fd = some k → s.openFds fd = some k := fun _ _ hk ↦ hk
  have hlookups : ∀ fd state, s.connections.lookup fd = some state →
      s.connections.lookup fd = some state := fun _ _ hstate ↦ hstate
  have hnone : ∀ fd ∈ (none : Option Fd), fd ∈ s.acceptor.fresh := by
    intro fd hfd
    cases hfd
  unfold stepAcceptor at ht
  cases hpc : s.acceptor with
  | accepting =>
    simp only [hpc] at ht
    split at ht
    · cases ht
      exact h
    · cases ht
      exact h.of_le rfl rfl rfl hopens hlookups hnone
  | accepted fd =>
    simp only [hpc] at ht
    cases ht
    refine h.of_le rfl rfl rfl hopens hlookups fun fd' hfd' ↦ ?_
    rw [hpc]
    cases ok with
    | true => exact hfd'
    | false => cases hfd'
  | registering fd =>
    simp only [hpc] at ht
    cases ht
    exact framed_registering h hsound hpc
  | adding fd =>
    simp only [hpc] at ht
    split at ht
    · split at ht <;> cases ht <;> exact h.of_le rfl rfl rfl hopens hlookups hnone
    · cases ht
      exact h.of_le rfl rfl rfl hopens hlookups hnone
  | counting =>
    simp only [hpc] at ht
    cases ht
    exact h.of_le rfl rfl rfl hopens hlookups hnone
  | abandoning fd =>
    simp only [hpc] at ht
    cases ht
    exact h.of_le rfl rfl rfl hopens (fun fd state ↦ lookup_eraseConnection) hnone
  | closing fd =>
    simp only [hpc] at ht
    cases ht
    exact h.of_le rfl rfl rfl (fun fd k ↦ openFds_closeFd) hlookups hnone
  | exited =>
    simp only [hpc] at ht
    cases ht

/-- The kernel numbers connections from new, whatever descriptor it gives them. -/
private theorem framed_accept {fd : Fd} (h : s.Framed) (hsound : s.Sound numWorkers)
    (hnone : (s.openFds fd).isNone) :
    Framed { s with
      openFds := Function.update s.openFds fd (some s.arrivals)
      arrivals := s.arrivals + 1
      acceptor := .accepted fd } := by
  have hnotin : fd ∉ s.connections := by
    intro hin
    have hopen := hsound.opened fd hin
    simp [Option.isNone_iff_eq_none.mp hnone] at hopen
  have hcases : ∀ fd' k, Function.update s.openFds fd (some s.arrivals) fd' = some k →
      fd' = fd ∧ k = s.arrivals ∨ fd' ≠ fd ∧ s.openFds fd' = some k := by
    intro fd' k hk
    by_cases hne : fd' = fd
    · subst hne
      rw [Function.update_self] at hk
      exact .inl ⟨rfl, (Option.some.inj hk).symm⟩
    · rw [Function.update_of_ne hne] at hk
      exact .inr ⟨hne, hk⟩
  refine ⟨?_, ?_, ?_, h.nonempty, h.handed, ?_, ?_⟩
  · intro fd₁ fd₂ k h₁ h₂
    rcases hcases fd₁ k h₁ with ⟨hnew₁, hk₁⟩ | ⟨-, hold₁⟩ <;>
      rcases hcases fd₂ k h₂ with ⟨hnew₂, hk₂⟩ | ⟨-, hold₂⟩
    · rw [hnew₁, hnew₂]
    · exact absurd hk₁ (Nat.ne_of_lt (h.old fd₂ k hold₂))
    · exact absurd hk₂ (Nat.ne_of_lt (h.old fd₁ k hold₁))
    · exact h.inj fd₁ fd₂ k hold₁ hold₂
  · intro fd' k hk
    rcases hcases fd' k hk with ⟨-, rfl⟩ | ⟨-, hk⟩
    · exact Nat.lt_succ_self _
    · exact Nat.lt_succ_of_lt (h.old fd' k hk)
  · exact fun k hk ↦ h.later k (Nat.le_of_succ_le hk)
  · intro fd' k state hk hstate
    rcases hcases fd' k hk with ⟨rfl, -⟩ | ⟨-, hk⟩
    · exact absurd (AList.lookup_isSome.mp (Option.isSome_of_eq_some hstate)) hnotin
    · exact h.state fd' k state hk hstate
  · intro fd' hfd' k hk
    cases hfd'
    rcases hcases fd k hk with ⟨-, rfl⟩ | ⟨hne, -⟩
    · exact h.later s.arrivals (Nat.le_refl _)
    · exact absurd rfl hne

/-- One read of a connection is one more chunk of that connection and of no other. -/
private theorem framed_read {fd : Fd} {k : Nat} {state : ConnectionState} {b : UInt8} {bs : Bytes}
    (h : s.Framed) (hsound : s.Sound numWorkers) (hk : s.openFds fd = some k)
    (hstate : s.connections.lookup fd = some state) :
    Framed { s with
      connections := s.connections.insert fd
        (processBuffer { state with buffer := state.buffer ++ b :: bs }).2
      received := Function.update s.received k (s.received k ++ [b :: bs])
      handed := Function.update s.handed k (s.handed k ++
        (processBuffer { state with buffer := state.buffer ++ b :: bs }).1) } := by
  have hafter : state = connectionAfter .initial (s.received k) := h.state fd k state hk hstate
  have hin : fd ∈ s.connections := AList.lookup_isSome.mp (Option.isSome_of_eq_some hstate)
  refine ⟨h.inj, h.old, ?_, ?_, ?_, ?_, ?_⟩
  · intro j hj
    have hne : j ≠ k := by
      have hold : k < s.arrivals := h.old fd k hk
      rintro rfl
      exact absurd hold (Nat.not_lt.mpr hj)
    exact (Function.update_of_ne hne _ _).trans (h.later j hj)
  · intro j c hc
    dsimp only at hc
    by_cases hj : j = k
    · subst hj
      rw [Function.update_self] at hc
      rcases List.mem_append.mp hc with hold | hnew
      · exact h.nonempty j c hold
      · rw [List.mem_singleton.mp hnew]
        exact List.cons_ne_nil b bs
    · rw [Function.update_of_ne hj] at hc
      exact h.nonempty j c hc
  · intro j
    by_cases hj : j = k
    · subst hj
      have hread := handleRead_concat (h.nonempty j) (List.cons_ne_nil b bs) .initial
      dsimp only
      rw [Function.update_self, Function.update_self, hread, ← h.handed j, ← hafter]
    · dsimp only
      rw [Function.update_of_ne hj, Function.update_of_ne hj]
      exact h.handed j
  · intro fd' j state' hj hstate'
    dsimp only at hj hstate' ⊢
    by_cases hfd : fd' = fd
    · subst hfd
      rw [AList.lookup_insert] at hstate'
      rw [hk] at hj
      cases hj
      cases hstate'
      rw [Function.update_self, connectionAfter_concat, ← hafter]
    · have hne : j ≠ k := by
        rintro rfl
        exact hfd (h.inj fd' fd j hj hk)
      rw [AList.lookup_insert_ne hfd] at hstate'
      rw [Function.update_of_ne hne]
      exact h.state fd' j state' hj hstate'
  · intro fd' hfd' j hj
    have hne : j ≠ k := by
      rintro rfl
      have hsame : fd' = fd := h.inj fd' fd j hj hk
      have hunlisted : fd' ∈ s.acceptor.unlisted := AcceptorPc.mem_unlisted_of_fresh hfd'
      exact (hsound.unlisted fd' hunlisted).2.1 (hsame ▸ hin)
    exact (Function.update_of_ne hne _ _).trans (h.fresh fd' hfd' j hj)

/-- Every step keeps the connections apart. -/
theorem Framed.step {l : EpollServerLabel} (h : s.Framed) (hsound : s.Sound numWorkers)
    (ht : s.step numWorkers l = some t) : t.Framed := by
  have hopens : ∀ fd k, s.openFds fd = some k → s.openFds fd = some k := fun _ _ hk ↦ hk
  have hlookups : ∀ fd state, s.connections.lookup fd = some state →
      s.connections.lookup fd = some state := fun _ _ hstate ↦ hstate
  have hfresh : ∀ fd ∈ s.acceptor.fresh, fd ∈ s.acceptor.fresh := fun _ hfd ↦ hfd
  cases l with
  | accept fd =>
    rw [EpollServer.step] at ht
    split at ht <;> cases ht
    next hok => exact framed_accept h hsound hok.2.2
  | acceptor ok => exact framed_stepAcceptor h hsound ht
  | epollWait i events =>
    rw [EpollServer.step] at ht
    split at ht <;> cases ht
    exact h.of_le rfl rfl rfl hopens hlookups hfresh
  | epollError i =>
    rw [EpollServer.step] at ht
    split at ht <;> cases ht
    exact h.of_le rfl rfl rfl hopens hlookups hfresh
  | recv i result =>
    rw [EpollServer.step] at ht
    split at ht
    · obtain ⟨fd, events, -, hcases⟩ := stepRecv_cases hsound ht
      rcases hcases with rfl | rfl | ⟨b, bs, state, k, -, hstate, hk, rfl⟩
      · exact h.of_le rfl rfl rfl hopens hlookups hfresh
      · exact h.of_le rfl rfl rfl hopens hlookups hfresh
      · exact framed_read h hsound hk hstate
    · cases ht
  | worker i =>
    rw [EpollServer.step] at ht
    split at ht
    · exact framed_stepWorker h ht
    · cases ht
  | stop =>
    cases ht
    exact h.of_le rfl rfl rfl hopens hlookups hfresh
  | closeEpoll =>
    rw [EpollServer.step] at ht
    split at ht <;> cases ht
    exact h.of_le rfl rfl rfl hopens hlookups hfresh
  | closeAll =>
    rw [EpollServer.step] at ht
    split at ht <;> cases ht
    refine h.of_le rfl rfl rfl ?_ ?_ hfresh
    · intro fd k hk
      dsimp only at hk
      split at hk
      · cases hk
      · exact hk
    · intro fd state hstate
      simp at hstate

end EpollServer
end EventStreamCore.Ingest.EpollIngestServer
