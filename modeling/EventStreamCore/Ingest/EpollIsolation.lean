import EventStreamCore.Ingest.EpollConnections
import EventStreamCore.Lib.Tally

/-!
# One connection of the epoll server at a time

What the threads of `EpollIngestServer` do to a connection is what `handleRead` does to the
chunks of that connection alone, `src/core/ingest/epoll.cpp:328–475`, whichever descriptor the
kernel has given it and whoever had that descriptor before; and `activeConnections_` counts the
entries of the connection table but for the entries a thread has in its hands.
-/

namespace EventStreamCore.Ingest.EpollIngestServer
open EventStreamCore.Lib EventStreamCore.Events

namespace EpollServer

variable {numWorkers : Nat} {s t : EpollServer}

/-! ### The count of connections -/

/-- The connections that workers have erased and not yet counted. -/
def erased (numWorkers : Nat) (s : EpollServer) : Nat :=
  tally WorkerLoopPc.uncounted s.workers numWorkers

/-- The counter is the number of entries but for the connections that threads have entered or
erased and not yet counted, modulo its range. -/
def Counted (numWorkers : Nat) (s : EpollServer) : Prop :=
  (s.activeConnections.toNat + s.acceptor.uncounted) % 2 ^ 64 =
    (s.connections.keys.length + s.erased numWorkers) % 2 ^ 64

/-- A worker that moves changes its own part of the sum only. -/
theorem erased_setWorker (s : EpollServer) {i : Nat} (hi : i < numWorkers) (pc : WorkerLoopPc) :
    (s.setWorker i pc).erased numWorkers + (s.workers i).uncounted =
      s.erased numWorkers + pc.uncounted :=
  tally_update hi pc

theorem length_keys_insert_new {table : ConnectionTable} {fd : Fd} (h : fd ∉ table)
    (state : ConnectionState) : (table.insert fd state).keys.length = table.keys.length + 1 := by
  rw [AList.keys_insert, List.erase_of_not_mem (mt AList.mem_keys.mp h), List.length_cons]

theorem length_keys_insert_old {table : ConnectionTable} {fd : Fd} (h : fd ∈ table)
    (state : ConnectionState) : (table.insert fd state).keys.length = table.keys.length := by
  have hmem : fd ∈ table.keys := AList.mem_keys.mp h
  have hpos : 0 < table.keys.length := List.length_pos_of_mem hmem
  rw [AList.keys_insert, List.length_cons, List.length_erase_of_mem hmem]
  omega

theorem length_keys_erase {table : ConnectionTable} {fd : Fd} (h : fd ∈ table) :
    (table.erase fd).keys.length + 1 = table.keys.length := by
  have hmem : fd ∈ table.keys := AList.mem_keys.mp h
  have hpos : 0 < table.keys.length := List.length_pos_of_mem hmem
  rw [AList.keys_erase, List.length_erase_of_mem hmem]
  omega

/-- A worker that goes on without erasing or counting. -/
private theorem Counted.setWorker (h : s.Counted numWorkers) {i : Nat}
    {pc : WorkerLoopPc} (hpc : pc.uncounted = (s.workers i).uncounted) :
    (s.setWorker i pc).Counted numWorkers := by
  have hsame : (s.setWorker i pc).erased numWorkers = s.erased numWorkers := tally_update_of_eq hpc
  unfold Counted
  rw [hsame]
  exact h

private theorem counted_erasing {i : Nat} {fd : Fd} {events : List EpollEvent}
    (h : s.Counted numWorkers) (hsound : s.Sound numWorkers) (hi : i < numWorkers)
    (hpc : s.workers i = .erasing fd events) :
    ((s.eraseConnection fd).setWorker i (.closing fd events)).Counted numWorkers := by
  have hin : fd ∈ s.connections := by
    apply (hsound.workers i).listed
    rw [hpc]
    exact List.mem_cons_self
  have hsum := (s.eraseConnection fd).erased_setWorker hi (.closing fd events)
  have hlength := length_keys_erase hin
  have hworker : ((s.eraseConnection fd).workers i).uncounted = 0 := by
    change (s.workers i).uncounted = 0
    rw [hpc]
    rfl
  have herased : (s.eraseConnection fd).erased numWorkers = s.erased numWorkers := rfl
  rw [hworker, herased] at hsum
  simp only [WorkerLoopPc.uncounted, Nat.add_zero] at hsum
  unfold Counted at h ⊢
  rw [hsum]
  change (s.activeConnections.toNat + s.acceptor.uncounted) % 2 ^ 64 =
    ((s.connections.erase fd).keys.length + (s.erased numWorkers + 1)) % 2 ^ 64
  rw [h]
  congr 1
  omega

private theorem counted_counting {i : Nat} {events : List EpollEvent} (h : s.Counted numWorkers)
    (hi : i < numWorkers) (hpc : s.workers i = .counting events) :
    Counted numWorkers { s.setWorker i (.batch events) with
      activeConnections := s.activeConnections - 1 } := by
  have hsum := s.erased_setWorker hi (.batch events)
  rw [hpc] at hsum
  simp only [WorkerLoopPc.uncounted] at hsum
  unfold Counted at h ⊢
  change ((s.activeConnections - 1).toNat + s.acceptor.uncounted) % 2 ^ 64 =
    (s.connections.keys.length + (s.setWorker i (.batch events)).erased numWorkers) % 2 ^ 64
  have hlt : s.activeConnections.toNat < 2 ^ 64 := s.activeConnections.toNat_lt
  rw [UInt64.toNat_sub]
  change ((2 ^ 64 - 1 + s.activeConnections.toNat) % 2 ^ 64 + _) % 2 ^ 64 = _
  omega

private theorem counted_stepWorker {i : Nat} (h : s.Counted numWorkers)
    (hsound : s.Sound numWorkers) (hi : i < numWorkers) (ht : s.stepWorker i = some t) :
    t.Counted numWorkers := by
  unfold stepWorker at ht
  split at ht
  · next hpc =>
    split at ht <;> cases ht
    · exact h
    · exact h.setWorker (by rw [hpc]; rfl)
  · next hpc =>
    cases ht
    exact h.setWorker (by rw [hpc]; rfl)
  · next event events hpc =>
    split at ht
    · cases ht
      exact h.setWorker (by rw [hpc]; rfl)
    · split at ht
      · split at ht <;> cases ht
        · exact h.setWorker (by rw [hpc]; rfl)
        · exact Counted.setWorker (s := s.check false) h
            (show _ = (s.workers i).uncounted by rw [hpc]; rfl)
      · cases ht
        exact h.setWorker (by rw [hpc]; rfl)
  · cases ht
  · next fd events hpc =>
    cases ht
    have hmoved : (s.setWorker i (.erasing fd events)).Counted numWorkers :=
      h.setWorker (by rw [hpc]; rfl)
    exact hmoved
  · next fd events hpc =>
    cases ht
    exact counted_erasing h hsound hi hpc
  · next fd events hpc =>
    cases ht
    exact Counted.setWorker (s := s.closeFd fd) h
      (show _ = (s.workers i).uncounted by rw [hpc]; rfl)
  · next events hpc =>
    cases ht
    exact counted_counting h hi hpc
  · cases ht

private theorem counted_stepAcceptor {ok : Bool} (h : s.Counted numWorkers)
    (hsound : s.Sound numWorkers) (ht : s.stepAcceptor numWorkers ok = some t) :
    t.Counted numWorkers := by
  unfold stepAcceptor at ht
  unfold Counted at h
  cases hpc : s.acceptor with
  | accepting =>
    rw [hpc] at h
    simp only [hpc] at ht
    split at ht <;> cases ht
    · rw [Counted, hpc]
      exact h
    · exact h
  | accepted fd =>
    rw [hpc] at h
    simp only [hpc] at ht
    cases ht
    cases ok <;> exact h
  | registering fd =>
    rw [hpc] at h
    simp only [hpc] at ht
    cases ht
    have hnotin : fd ∉ s.connections := (hsound.unlisted fd (by rw [hpc]; rfl)).2.1
    have hconnections : (s.emplaceConnection fd).connections =
        s.connections.insert fd .initial := by
      simp [emplaceConnection, AList.lookup_eq_none.mpr hnotin]
    have hlength := length_keys_insert_new hnotin .initial
    change (s.activeConnections.toNat + 1) % 2 ^ 64 =
      ((s.emplaceConnection fd).connections.keys.length + s.erased numWorkers) % 2 ^ 64
    rw [hconnections, hlength]
    simp only [AcceptorPc.uncounted] at h
    omega
  | adding fd =>
    rw [hpc] at h
    simp only [hpc] at ht
    split at ht
    · split at ht <;> cases ht <;> exact h
    · cases ht
      exact h
  | counting =>
    rw [hpc] at h
    simp only [hpc] at ht
    cases ht
    change ((s.activeConnections + 1).toNat + 0) % 2 ^ 64 =
      (s.connections.keys.length + s.erased numWorkers) % 2 ^ 64
    rw [UInt64.toNat_add]
    change ((s.activeConnections.toNat + 1) % 2 ^ 64 + 0) % 2 ^ 64 = _
    simp only [AcceptorPc.uncounted] at h
    omega
  | abandoning fd =>
    rw [hpc] at h
    simp only [hpc] at ht
    cases ht
    obtain ⟨hin, -⟩ := hsound.listed fd (by rw [hpc]; rfl)
    have hlength := length_keys_erase hin
    change (s.activeConnections.toNat + 0) % 2 ^ 64 =
      ((s.connections.erase fd).keys.length + s.erased numWorkers) % 2 ^ 64
    simp only [AcceptorPc.uncounted] at h
    omega
  | closing fd =>
    rw [hpc] at h
    simp only [hpc] at ht
    cases ht
    exact h
  | exited =>
    simp only [hpc] at ht
    cases ht

/-- Every step keeps the count but the last one of `stop`. -/
theorem Counted.step {l : EpollServerLabel} (h : s.Counted numWorkers)
    (hsound : s.Sound numWorkers) (hl : l ≠ .closeAll) (ht : s.step numWorkers l = some t) :
    t.Counted numWorkers := by
  cases l with
  | accept fd =>
    rw [EpollServer.step] at ht
    split at ht <;> cases ht
    next hok =>
    unfold Counted at h ⊢
    rw [hok.1] at h
    exact h
  | acceptor ok => exact counted_stepAcceptor h hsound ht
  | epollWait i events =>
    rw [EpollServer.step] at ht
    split at ht <;> cases ht
    next hok => exact h.setWorker (by rw [hok.2.1]; rfl)
  | epollError i =>
    rw [EpollServer.step] at ht
    split at ht <;> cases ht
    next hok => exact h.setWorker (by rw [hok.2]; rfl)
  | recv i result =>
    rw [EpollServer.step] at ht
    split at ht
    · next hi =>
      obtain ⟨fd, events, hpc, hcases⟩ := stepRecv_cases hsound ht
      rcases hcases with rfl | rfl | ⟨b, bs, state, k, -, hstate, -, rfl⟩
      · exact h.setWorker (by rw [hpc]; rfl)
      · exact h.setWorker (by rw [hpc]; rfl)
      · have hin : fd ∈ s.connections :=
          AList.lookup_isSome.mp (Option.isSome_of_eq_some hstate)
        unfold Counted at h ⊢
        dsimp only
        rw [length_keys_insert_old hin]
        exact h
    · cases ht
  | worker i =>
    rw [EpollServer.step] at ht
    split at ht
    · next hi => exact counted_stepWorker h hsound hi ht
    · cases ht
  | stop =>
    cases ht
    exact h
  | closeEpoll =>
    rw [EpollServer.step] at ht
    split at ht <;> cases ht
    exact h
  | closeAll => exact absurd rfl hl

/-! ### Every run -/

/-- What every run keeps, if `stop` waits for the accept thread. -/
structure Inv (numWorkers : Nat) (s : EpollServer) : Prop where
  sound : s.Sound numWorkers
  framed : s.Framed

theorem Inv.initial (numWorkers : Nat) : EpollServer.initial.Inv numWorkers := by
  have hclaims : ∀ i fd, ¬EpollServer.initial.Claims i fd := by
    rintro i fd (hint | htouch)
    · cases hint
    · cases htouch
  refine ⟨⟨?_, ?_, ?_, ?_, ?_, ?_, ?_, fun _ ↦ rfl, fun _ _ ↦ rfl, rfl⟩,
    ⟨?_, ?_, fun _ _ ↦ rfl, ?_, fun _ ↦ rfl, ?_, ?_⟩⟩
  · exact fun i j fd hi ↦ absurd hi (hclaims i fd)
  · exact fun i fd hint ↦ absurd (.inl hint) (hclaims i fd)
  · intro i
    refine ⟨List.nodup_nil, ?_, ?_, ?_⟩
    · exact fun fd hfd ↦ absurd hfd List.not_mem_nil
    · rintro fd ⟨⟩
    · rintro fd ⟨⟩
  · rintro fd ⟨⟩
  · rintro fd ⟨⟩
  · exact fun fd hfd ↦ absurd hfd (AList.notMem_empty fd)
  · rintro fd ⟨⟩
  · rintro fd fd' k ⟨⟩
  · rintro fd k ⟨⟩
  · exact fun k c hc ↦ absurd hc List.not_mem_nil
  · rintro fd k state ⟨⟩
  · rintro fd ⟨⟩

theorem Inv.step {l : EpollServerLabel} (h : s.Inv numWorkers) (hg : s.StopsBetweenConnections l)
    (ht : s.step numWorkers l = some t) : t.Inv numWorkers :=
  ⟨h.sound.step hg ht, h.framed.step h.sound ht⟩

theorem inv_of_reachable
    (h : (epollServer numWorkers).ReachableWith StopsBetweenConnections s) : s.Inv numWorkers :=
  Machine.ReachableWith.invariant (.initial numWorkers) (fun _ _ _ hi hg ht ↦ hi.step hg ht) h

/-- Besides, `stop` has not come to its last step. -/
def StopsBeforeClosing (s : EpollServer) (l : EpollServerLabel) : Prop :=
  s.StopsBetweenConnections l ∧ l ≠ .closeAll

instance (s : EpollServer) (l : EpollServerLabel) : Decidable (s.StopsBeforeClosing l) :=
  inferInstanceAs (Decidable (_ ∧ _))

theorem Counted.of_reachable
    (h : (epollServer numWorkers).ReachableWith StopsBeforeClosing s) : s.Counted numWorkers := by
  have hboth : s.Inv numWorkers ∧ s.Counted numWorkers := by
    refine Machine.ReachableWith.invariant
      (I := fun s ↦ s.Inv numWorkers ∧ s.Counted numWorkers) ?_ ?_ h
    · have hnone : EpollServer.initial.erased numWorkers = 0 := tally_eq_zero fun _ _ ↦ rfl
      refine ⟨.initial numWorkers, ?_⟩
      change EpollServer.initial.Counted numWorkers
      rw [Counted, hnone]
      rfl
    · exact fun _ _ _ hi hg ht ↦ ⟨hi.1.step hg.1 ht, hi.2.step hi.1.sound hg.2 ht⟩
  exact hboth.2

/-- No thread has a connection in its hands. -/
def Idle (numWorkers : Nat) (s : EpollServer) : Prop :=
  (s.acceptor = .accepting ∨ s.acceptor = .exited) ∧
    ∀ i < numWorkers, s.workers i = .waiting ∨ s.workers i = .exited

private theorem uncounted_of_idle (h : s.Idle numWorkers) :
    s.acceptor.uncounted = 0 ∧ s.erased numWorkers = 0 := by
  constructor
  · rcases h.1 with hpc | hpc <;> rw [hpc] <;> rfl
  · apply tally_eq_zero
    intro i hi
    rcases h.2 i hi with hpc | hpc <;> rw [hpc] <;> rfl

private theorem open_iff_of_idle (h : s.Sound numWorkers) (hidle : s.Idle numWorkers) (fd : Fd) :
    (s.openFds fd).isSome ↔ fd ∈ s.connections := by
  constructor
  · intro hsome
    rcases h.accounted fd hsome with hin | hun | ⟨i, hi, hcloses⟩
    · exact hin
    · rcases hidle.1 with hpc | hpc <;> rw [hpc] at hun <;> cases hun
    · rcases hidle.2 i hi with hpc | hpc <;> rw [hpc] at hcloses <;> cases hcloses
  · exact h.opened fd

private theorem active_of_idle (h : s.Counted numWorkers) (hidle : s.Idle numWorkers) :
    s.activeConnections = UInt64.ofNat s.connections.keys.length := by
  obtain ⟨hacceptor, herased⟩ := uncounted_of_idle hidle
  unfold Counted at h
  rw [hacceptor, herased] at h
  have hlt : s.activeConnections.toNat < 2 ^ 64 := s.activeConnections.toNat_lt
  rw [← UInt64.toNat_inj, UInt64.toNat_ofNat']
  omega

end EpollServer

/-- In every interleaving of the accept thread, the workers and `stop` in which `stop` does not
clear the epoll descriptors under the accept thread: no thread touches a closed client descriptor
or misses an entry, no descriptor is dealt with by two workers, no two descriptors stand for one
connection, and what has been handed to the dispatcher of a connection is what `handleRead` makes
of the chunks of that connection alone, whoever had its descriptor before. Every entry is in the
state its own chunks leave and within the limit. -/
theorem connections_stay_apart (numWorkers : Nat) (s : EpollServer)
    (h : (epollServer numWorkers).ReachableWith EpollServer.StopsBetweenConnections s) :
    s.fault = false ∧
    (∀ i j fd, s.Claims i fd → s.Claims j fd → i = j) ∧
    (∀ fd ∈ s.connections, (s.openFds fd).isSome) ∧
    (∀ fd fd' k, s.openFds fd = some k → s.openFds fd' = some k → fd = fd') ∧
    (∀ k, s.handed k = (handleRead .initial ((s.received k).map .ok)).1) ∧
    ∀ fd k state, s.openFds fd = some k → s.connections.lookup fd = some state →
      state = connectionAfter .initial (s.received k) ∧ state.buffer.length ≤ 10485763 := by
  obtain ⟨hsound, hframed⟩ := EpollServer.inv_of_reachable h
  refine ⟨hsound.fault, hsound.exclusive, hsound.opened, hframed.inj, hframed.handed, ?_⟩
  intro fd k state hk hstate
  have hafter := hframed.state fd k state hk hstate
  have hempty : Residual kMaxFrameSize ConnectionState.initial.buffer := Or.inl (by decide)
  have hresidual := connectionAfter_residual (s.received k) hempty
  rw [← hafter] at hresidual
  exact ⟨hafter, hresidual.length_le⟩

/-- The second connection on a descriptor does not see the three bytes that the first one left
behind when it hung up. -/
theorem connections_stay_apart_reuse : ∃ s : EpollServer,
    s.received 0 = [[0, 0, 0]] ∧ s.handed 0 = [] ∧
    s.received 1 = [createEventFrame 0 [116] []] ∧ s.handed 1 = [⟨.batch, [116], []⟩] ∧
    s.openFds 5 = some 1 ∧ s.fault = false := by
  let m := epollServer 2
  let enter : List EpollServerLabel :=
    [.accept 5, .acceptor true, .acceptor true, .acceptor true, .acceptor true]
  have hrun : (m.runWith EpollServer.StopsBetweenConnections m.start
      (enter ++ [.epollWait 0 [⟨5, false, true⟩], .worker 0, .recv 0 (.ok [0, 0, 0]),
        .recv 0 (.error .wouldBlock), .worker 0, .epollWait 0 [⟨5, true, true⟩], .worker 0,
        .worker 0, .worker 0, .worker 0] ++ enter ++ [.epollWait 1 [⟨5, false, true⟩], .worker 1,
        .recv 1 (.ok (createEventFrame 0 [116] []))])).map (fun s ↦
          (s.received 0, s.received 1, s.openFds 5)) =
      some ([[0, 0, 0]], [createEventFrame 0 [116] []], some 1) := by
    decide +kernel
  obtain ⟨s, hrun, hs⟩ := Option.map_eq_some_iff.mp hrun
  simp only [Prod.mk.injEq] at hs
  obtain ⟨hr0, hr1, hopen⟩ := hs
  obtain ⟨hfault, -, -, -, hhanded, -⟩ :=
    connections_stay_apart 2 s (Machine.ReachableWith.run .start hrun)
  refine ⟨s, hr0, ?_, hr1, ?_, hopen, hfault⟩
  · rw [hhanded, hr0]
    decide +kernel
  · rw [hhanded, hr1]
    decide +kernel

-- without the condition on `stop` the accept thread indexes a list that has been cleared
example : ((epollServer 1).run .initial [.accept 5, .acceptor true, .acceptor true, .stop,
    .closeEpoll, .acceptor true]).map EpollServer.fault = some true := by
  decide +kernel

/-- Under the same condition every open client descriptor is in the table or in the hands of the
thread about to enter or to close it, so none is leaked. When no thread has one in its hands the
open descriptors are those of the table, and until the last step of `stop`, which closes what is
left without counting, `activeConnections_` is their number; after that step none is open. -/
theorem no_descriptor_leaks (numWorkers : Nat) (s : EpollServer)
    (h : (epollServer numWorkers).ReachableWith EpollServer.StopsBetweenConnections s) :
    (∀ fd, (s.openFds fd).isSome → fd ∈ s.connections ∨ fd ∈ s.acceptor.unlisted ∨
      ∃ i < numWorkers, fd ∈ (s.workers i).closes) ∧
    (s.Idle numWorkers → ∀ fd, (s.openFds fd).isSome ↔ fd ∈ s.connections) ∧
    ((epollServer numWorkers).ReachableWith EpollServer.StopsBeforeClosing s →
      s.Counted numWorkers ∧ (s.Idle numWorkers →
        s.activeConnections = UInt64.ofNat s.connections.keys.length)) ∧
    ∀ t, s.step numWorkers .closeAll = some t → ∀ fd, t.openFds fd = none := by
  have hi := EpollServer.inv_of_reachable h
  refine ⟨hi.sound.accounted, ?_, ?_, fun t ht fd ↦ ?_⟩
  · exact fun hidle ↦ EpollServer.open_iff_of_idle hi.sound hidle
  · intro hbefore
    have hcounted := EpollServer.Counted.of_reachable hbefore
    exact ⟨hcounted, fun hidle ↦ EpollServer.active_of_idle hcounted hidle⟩
  · have hstep := (hi.step (l := .closeAll) trivial ht).sound
    rw [EpollServer.step] at ht
    split at ht <;> cases ht
    next hok =>
    have hiff := EpollServer.open_iff_of_exited hstep hok.1 hok.2 fd
    have hnotin : fd ∉ (∅ : ConnectionTable) := AList.notMem_empty fd
    rw [← hiff] at hnotin
    simpa using hnotin

/-- Two connections are taken, one hangs up, and `stop` closes the other. -/
theorem no_descriptor_leaks_stop : ∃ s t : EpollServer,
    s.Counted 1 ∧ s.connections.keys = [6] ∧ s.activeConnections = 1 ∧ s.openFds 5 = none ∧
    (s.openFds 6).isSome ∧ s.step 1 .closeAll = some t ∧ ∀ fd, t.openFds fd = none := by
  let m := epollServer 1
  let enter (fd : Fd) : List EpollServerLabel :=
    [.accept fd, .acceptor true, .acceptor true, .acceptor true, .acceptor true]
  have hrun : ((m.runWith EpollServer.StopsBeforeClosing m.start
      (enter 5 ++ enter 6 ++ [.epollWait 0 [⟨5, true, false⟩], .worker 0, .worker 0, .worker 0,
        .worker 0, .worker 0, .worker 0, .stop, .closeEpoll, .acceptor true, .worker 0])).map
        (fun s ↦ (s.connections.keys, s.activeConnections, s.openFds 5, (s.openFds 6).isSome,
          (s.step 1 .closeAll).isSome))) = some ([6], 1, none, true, true) := by
    decide +kernel
  obtain ⟨s, hrun, hs⟩ := Option.map_eq_some_iff.mp hrun
  simp only [Prod.mk.injEq] at hs
  obtain ⟨hkeys, hactive, hclosed, hopen, hstep⟩ := hs
  obtain ⟨t, ht⟩ := Option.isSome_iff_exists.mp hstep
  have hreach := Machine.ReachableWith.run .start hrun
  obtain ⟨-, -, hcounted, hall⟩ := no_descriptor_leaks 1 s (hreach.mono fun _ _ hg ↦ hg.1)
  exact ⟨s, t, (hcounted hreach).1, hkeys, hactive, hclosed, hopen, ht, hall t ht⟩

end EventStreamCore.Ingest.EpollIngestServer
