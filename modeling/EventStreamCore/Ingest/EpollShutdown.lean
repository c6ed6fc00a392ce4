import EventStreamCore.Ingest.EpollIsolation
import EventStreamCore.Lib.Descent

/-!
# How the epoll server stops

`EpollIngestServer::stop` and the loops it waits for, `src/core/ingest/epoll.cpp:145–185,198–311,
328–373`. The sockets of the clients do not block and `epoll_wait` returns by itself, so `stop`
waits for no client that says nothing; the loop of `handleRead` tests no flag, so it waits for one
that never stops sending.
-/

namespace EventStreamCore.Ingest.EpollIngestServer
open EventStreamCore.Lib EventStreamCore.Events

namespace EpollServerLabel

/-- No connection comes in, nothing is reported, and no `recv` returns data. -/
def silent : EpollServerLabel → Bool
  | .accept _ => false
  | .epollWait _ _ => false
  | .recv _ (.ok (_ :: _)) => false
  | _ => true

/-- A step of the accept thread or of a worker. -/
def ofThread : EpollServerLabel → Bool
  | .stop => false
  | .closeEpoll => false
  | .closeAll => false
  | _ => true

/-- Every `recv` of a worker that returns finds data. -/
def floods (i : Nat) : EpollServerLabel → Bool
  | .recv _ (.ok (_ :: _)) => true
  | .recv j _ => j != i
  | _ => true

end EpollServerLabel

/-- The steps the accept thread has left once the flag is cleared, at most. -/
def AcceptorPc.work : AcceptorPc → Nat
  | .accepted _ => 6
  | .registering _ => 5
  | .adding _ => 4
  | .abandoning _ => 3
  | .closing _ => 2
  | .counting => 2
  | .accepting => 1
  | .exited => 0

/-- The steps a worker has left once the flag is cleared and nothing is sent, at most. -/
def WorkerLoopPc.work : WorkerLoopPc → Nat
  | .reading _ events => 6 * events.length + 7
  | .unlinking _ events => 6 * events.length + 6
  | .erasing _ events => 6 * events.length + 5
  | .closing _ events => 6 * events.length + 4
  | .counting events => 6 * events.length + 3
  | .batch events => 6 * events.length + 2
  | .waiting => 1
  | .exited => 0

namespace EpollServer

/-- All the steps the threads have left. -/
def work (numWorkers : Nat) (s : EpollServer) : Nat :=
  s.acceptor.work + tally WorkerLoopPc.work s.workers numWorkers

/-- The threads have been told to end and have ended. -/
def Exited (numWorkers : Nat) (s : EpollServer) : Prop :=
  s.isRunning = false ∧ s.acceptor = .exited ∧ ∀ i < numWorkers, s.workers i = .exited

variable {numWorkers : Nat} {s t : EpollServer}

/-! ### What a step of a thread costs -/

/-- A worker that moves to a place closer to its end. -/
private theorem work_setWorker {i : Nat} {pc : WorkerLoopPc} (hi : i < numWorkers)
    (hlt : pc.work < (s.workers i).work) (hacceptor : t.acceptor = s.acceptor)
    (hworkers : t.workers = Function.update s.workers i pc) :
    t.work numWorkers < s.work numWorkers := by
  have hupdate := tally_update (w := WorkerLoopPc.work) (f := s.workers) hi pc
  rw [work, work, hacceptor, hworkers]
  omega

/-- The accept thread moves to a place closer to its end. -/
private theorem work_setAcceptor (hlt : t.acceptor.work < s.acceptor.work)
    (hworkers : t.workers = s.workers) : t.work numWorkers < s.work numWorkers := by
  rw [work, work, hworkers]
  omega

private theorem work_stepAcceptor {ok : Bool} (hflag : s.isRunning = false)
    (ht : s.stepAcceptor numWorkers ok = some t) :
    t.isRunning = false ∧ t.work numWorkers < s.work numWorkers := by
  unfold stepAcceptor at ht
  cases hpc : s.acceptor with
  | accepting =>
    simp only [hpc, hflag, Bool.false_eq_true, if_false] at ht
    cases ht
    exact ⟨rfl, work_setAcceptor (by rw [hpc]; simp [AcceptorPc.work]) rfl⟩
  | accepted fd =>
    simp only [hpc] at ht
    cases ht
    refine ⟨hflag, work_setAcceptor ?_ rfl⟩
    rw [hpc]
    cases ok <;> simp [AcceptorPc.work]
  | registering fd =>
    simp only [hpc] at ht
    cases ht
    exact ⟨hflag, work_setAcceptor (by rw [hpc]; simp [AcceptorPc.work]) rfl⟩
  | adding fd =>
    simp only [hpc] at ht
    split at ht
    · split at ht <;> cases ht <;>
        exact ⟨hflag, work_setAcceptor (by rw [hpc]; simp [AcceptorPc.work]) rfl⟩
    · cases ht
      exact ⟨hflag, work_setAcceptor (by rw [hpc]; simp [AcceptorPc.work]) rfl⟩
  | counting =>
    simp only [hpc] at ht
    cases ht
    exact ⟨hflag, work_setAcceptor (by rw [hpc]; simp [AcceptorPc.work]) rfl⟩
  | abandoning fd =>
    simp only [hpc] at ht
    cases ht
    exact ⟨hflag, work_setAcceptor (by rw [hpc]; simp [AcceptorPc.work]) rfl⟩
  | closing fd =>
    simp only [hpc] at ht
    cases ht
    exact ⟨hflag, work_setAcceptor (by rw [hpc]; simp [AcceptorPc.work]) rfl⟩
  | exited =>
    simp only [hpc] at ht
    cases ht

private theorem work_stepWorker {i : Nat} (hi : i < numWorkers) (hflag : s.isRunning = false)
    (ht : s.stepWorker i = some t) :
    t.isRunning = false ∧ t.work numWorkers < s.work numWorkers := by
  -- where the worker goes decides what is left
  have hmove : ∀ {r : EpollServer} (pc : WorkerLoopPc), pc.work < (s.workers i).work →
      r.isRunning = s.isRunning → r.acceptor = s.acceptor →
      r.workers = Function.update s.workers i pc →
      r.isRunning = false ∧ r.work numWorkers < s.work numWorkers := by
    intro r pc hlt hsame hacceptor hworkers
    exact ⟨hsame.trans hflag, work_setWorker hi hlt hacceptor hworkers⟩
  unfold stepWorker at ht
  cases hpc : s.workers i with
  | waiting =>
    simp only [hpc, hflag, Bool.false_eq_true, if_false] at ht
    cases ht
    exact hmove .exited (by rw [hpc]; decide) rfl rfl rfl
  | batch events =>
    cases events with
    | nil =>
      simp only [hpc] at ht
      cases ht
      exact hmove .waiting (by rw [hpc]; decide) rfl rfl rfl
    | cons event events =>
      simp only [hpc] at ht
      have hlength : (WorkerLoopPc.batch (event :: events)).work = 6 * events.length + 8 := by
        simp only [WorkerLoopPc.work, List.length_cons]
        omega
      split at ht
      · cases ht
        exact hmove (.unlinking event.fd events)
          (by rw [hpc, hlength]; simp only [WorkerLoopPc.work]; omega) rfl rfl rfl
      · split at ht
        · split at ht
          · cases ht
            exact hmove (.reading event.fd events)
              (by rw [hpc, hlength]; simp only [WorkerLoopPc.work]; omega) rfl rfl rfl
          · cases ht
            exact hmove (.unlinking event.fd events)
              (by rw [hpc, hlength]; simp only [WorkerLoopPc.work]; omega) rfl rfl rfl
        · cases ht
          exact hmove (.batch events)
            (by rw [hpc, hlength]; simp only [WorkerLoopPc.work]; omega) rfl rfl rfl
  | reading fd events =>
    simp only [hpc] at ht
    cases ht
  | unlinking fd events =>
    simp only [hpc] at ht
    cases ht
    exact hmove (.erasing fd events) (by rw [hpc]; simp [WorkerLoopPc.work]) rfl rfl rfl
  | erasing fd events =>
    simp only [hpc] at ht
    cases ht
    exact hmove (.closing fd events) (by rw [hpc]; simp [WorkerLoopPc.work]) rfl rfl rfl
  | closing fd events =>
    simp only [hpc] at ht
    cases ht
    exact hmove (.counting events) (by rw [hpc]; simp [WorkerLoopPc.work]) rfl rfl rfl
  | counting events =>
    simp only [hpc] at ht
    cases ht
    exact hmove (.batch events) (by rw [hpc]; simp [WorkerLoopPc.work]) rfl rfl rfl
  | exited =>
    simp only [hpc] at ht
    cases ht

/-- A `recv` without data ends the loop of `handleRead`. -/
private theorem work_stepRecv {i : Nat} {result : Recv} (hi : i < numWorkers)
    (hflag : s.isRunning = false) (hsilent : (EpollServerLabel.recv i result).silent = true)
    (ht : s.stepRecv i result = some t) :
    t.isRunning = false ∧ t.work numWorkers < s.work numWorkers := by
  unfold stepRecv at ht
  cases hpc : s.workers i with
  | reading fd events =>
    simp only [hpc] at ht
    have hmove : ∀ pc : WorkerLoopPc, pc.work < (s.workers i).work →
        (s.setWorker i pc).isRunning = false ∧
        (s.setWorker i pc).work numWorkers < s.work numWorkers :=
      fun pc hlt ↦ ⟨hflag, work_setWorker hi hlt rfl rfl⟩
    cases result with
    | error e =>
      cases e <;> cases ht
      · exact hmove (.batch events) (by rw [hpc]; simp [WorkerLoopPc.work])
      · exact hmove (.unlinking fd events) (by rw [hpc]; simp [WorkerLoopPc.work])
    | ok chunk =>
      cases chunk with
      | nil =>
        cases ht
        exact hmove (.unlinking fd events) (by rw [hpc]; simp [WorkerLoopPc.work])
      | cons b bs => cases hsilent
  | _ =>
    simp only [hpc] at ht
    cases ht

/-- Once the flag is cleared, every step of a thread brings the end closer and no other step takes
it further away, as long as the clients say nothing. -/
theorem epollServer_pays : (epollServer numWorkers).Pays (fun s ↦ s.isRunning = false)
    (fun l ↦ l.silent = true) (fun _ l ↦ l.ofThread) (work numWorkers) := by
  have hstep : ∀ (s : EpollServer) (l : EpollServerLabel) (t : EpollServer),
      s.isRunning = false → l.silent = true → s.step numWorkers l = some t →
      t.isRunning = false ∧ t.work numWorkers + l.ofThread.toNat ≤ s.work numWorkers := by
    intro s l t hflag hsilent ht
    cases l with
    | accept fd => cases hsilent
    | acceptor ok => exact work_stepAcceptor hflag ht
    | epollWait i events => cases hsilent
    | epollError i =>
      rw [EpollServer.step] at ht
      split at ht <;> cases ht
      next hok =>
      have hlt : WorkerLoopPc.exited.work < (s.workers i).work := by
        rw [hok.2]
        decide
      exact ⟨hflag, work_setWorker hok.1 hlt rfl rfl⟩
    | recv i result =>
      rw [EpollServer.step] at ht
      split at ht
      · next hi => exact work_stepRecv hi hflag hsilent ht
      · cases ht
    | worker i =>
      rw [EpollServer.step] at ht
      split at ht
      · next hi => exact work_stepWorker hi hflag ht
      · cases ht
    | stop =>
      cases ht
      exact ⟨rfl, Nat.le_refl _⟩
    | closeEpoll =>
      rw [EpollServer.step] at ht
      split at ht <;> cases ht
      exact ⟨hflag, Nat.le_refl _⟩
    | closeAll =>
      rw [EpollServer.step] at ht
      split at ht <;> cases ht
      exact ⟨hflag, Nat.le_refl _⟩
  exact ⟨fun s l t h hl ht ↦ (hstep s l t h hl ht).1, fun s l t h hl ht ↦ (hstep s l t h hl ht).2⟩

/-! ### Nobody is stuck -/

/-- The accept thread goes on until it has ended. -/
private theorem isSome_stepAcceptor (hpc : s.acceptor ≠ .exited) (ok : Bool) :
    (s.stepAcceptor numWorkers ok).isSome := by
  unfold stepAcceptor
  split
  · split <;> rfl
  · rfl
  · rfl
  · split
    · split <;> rfl
    · rfl
  · rfl
  · rfl
  · rfl
  · next hexited => exact absurd hexited hpc

/-- A worker goes on until it has ended, if its `recv` returns. -/
private theorem isSome_stepWorker {i : Nat} (hpc : s.workers i ≠ .exited) :
    (s.stepWorker i).isSome ∨ (s.stepRecv i (.error .wouldBlock)).isSome := by
  unfold stepWorker stepRecv
  cases hplace : s.workers i with
  | waiting =>
    left
    dsimp only
    split <;> rfl
  | batch events =>
    left
    cases events with
    | nil => rfl
    | cons event events =>
      dsimp only
      split
      · rfl
      · split
        · split <;> rfl
        · rfl
  | reading fd events => exact .inr rfl
  | exited => exact absurd hplace hpc
  | _ => exact .inl rfl

/-- As long as a thread has not ended, a step brings the end closer. -/
theorem epollServer_descends : (epollServer numWorkers).Descent (Inv numWorkers)
    (fun l ↦ l.silent = true ∧ l ≠ .closeEpoll ∧ l ≠ .closeAll) (Exited numWorkers)
    (fun s ↦ s.work numWorkers + s.isRunning.toNat) where
  keeps s l t hi hl ht := by
    apply hi.step _ ht
    cases l with
    | closeEpoll => exact absurd rfl hl.2.1
    | _ => trivial
  descend s hi hg := by
    cases hflag : s.isRunning with
    | true =>
      refine ⟨.stop, { s with isRunning := false }, ⟨rfl, by simp, by simp⟩, rfl, ?_⟩
      show s.work numWorkers + 0 < s.work numWorkers + 1
      omega
    | false =>
      have hmove : ∀ l, l.silent = true → l.ofThread = true → (s.step numWorkers l).isSome →
          ∃ l t, (l.silent = true ∧ l ≠ .closeEpoll ∧ l ≠ .closeAll) ∧
            s.step numWorkers l = some t ∧
            t.work numWorkers + t.isRunning.toNat < s.work numWorkers + Bool.toNat false := by
        intro l hsilent hthread hsome
        obtain ⟨t, ht⟩ := Option.isSome_iff_exists.mp hsome
        have hstopped := epollServer_pays.keeps s l t hflag hsilent ht
        have hpaid := epollServer_pays.pays s l t hflag hsilent ht
        rw [hthread] at hpaid
        refine ⟨l, t, ⟨hsilent, ?_, ?_⟩, ht, ?_⟩
        · rintro rfl
          cases hthread
        · rintro rfl
          cases hthread
        · rw [hstopped]
          exact hpaid
      by_cases hacceptor : s.acceptor = .exited
      · have hworker : ∃ i < numWorkers, s.workers i ≠ .exited := by
          by_contra hnone
          apply hg
          refine ⟨hflag, hacceptor, fun i hi ↦ ?_⟩
          by_contra hne
          exact hnone ⟨i, hi, hne⟩
        obtain ⟨i, hlt, hne⟩ := hworker
        rcases isSome_stepWorker hne with hsome | hsome
        · apply hmove (.worker i) rfl rfl
          rw [EpollServer.step, if_pos hlt]
          exact hsome
        · apply hmove (.recv i (.error .wouldBlock)) rfl rfl
          rw [EpollServer.step, if_pos hlt]
          exact hsome
      · exact hmove (.acceptor true) rfl rfl (isSome_stepAcceptor hacceptor true)

/-- The last steps of `stop` close what is left. -/
private theorem exists_close (h : s.Inv numWorkers) (hexited : s.Exited numWorkers) :
    ∃ t, (epollServer numWorkers).run s [.closeEpoll, .closeAll] = some t ∧ t.Exited numWorkers ∧
      t.epollOpen = false ∧ t.connections = ∅ ∧ (∀ fd, t.openFds fd = none) ∧ t.fault = false := by
  obtain ⟨hflag, hacceptor, hworkers⟩ := hexited
  have hepoll : s.step numWorkers .closeEpoll = some { s with epollOpen := false } := by
    rw [EpollServer.step, hflag]
    rfl
  have hadmits : ¬s.Admitting := by
    rw [Admitting, hacceptor]
    exact id
  have hinv := h.step (l := .closeEpoll) hadmits hepoll
  cases hall : EpollServer.step numWorkers { s with epollOpen := false } .closeAll with
  | none =>
    rw [EpollServer.step, if_pos ⟨hacceptor, hworkers⟩] at hall
    cases hall
  | some t =>
    have hsound := (hinv.step (l := .closeAll) trivial hall).sound
    refine ⟨t, ?_, ?_⟩
    · rw [Machine.run_cons_of_step hepoll, Machine.run_cons_of_step hall]
      rfl
    · rw [EpollServer.step, if_pos ⟨hacceptor, hworkers⟩] at hall
      cases hall
      refine ⟨⟨hflag, hacceptor, hworkers⟩, rfl, rfl, fun fd ↦ ?_, hsound.fault⟩
      have hiff := open_iff_of_exited hsound hacceptor hworkers fd
      have hnotin : fd ∉ (∅ : ConnectionTable) := AList.notMem_empty fd
      rw [← hiff] at hnotin
      simpa using hnotin

/-! ### A worker that reads -/

private theorem workers_stepAcceptor {ok : Bool} (ht : s.stepAcceptor numWorkers ok = some t) :
    t.workers = s.workers := by
  unfold stepAcceptor at ht
  split at ht
  · split at ht <;> cases ht <;> rfl
  · cases ht
    rfl
  · cases ht
    rfl
  · split at ht
    · split at ht <;> cases ht <;> rfl
    · cases ht
      rfl
  · cases ht
    rfl
  · cases ht
    rfl
  · cases ht
    rfl
  · cases ht

/-- Another worker's step leaves a worker where it is. -/
private theorem workers_stepWorker {i j : Nat} (hne : j ≠ i) (ht : s.stepWorker i = some t) :
    t.workers j = s.workers j := by
  have hother : ∀ pc, Function.update s.workers i pc j = s.workers j :=
    fun pc ↦ Function.update_of_ne hne pc s.workers
  unfold stepWorker at ht
  split at ht
  · split at ht <;> cases ht
    · rfl
    · exact hother .exited
  · cases ht
    exact hother .waiting
  · split at ht
    · cases ht
      exact hother _
    · split at ht
      · split at ht <;> cases ht <;> exact hother _
      · cases ht
        exact hother _
  · cases ht
  · cases ht
    exact hother _
  · cases ht
    exact hother _
  · cases ht
    exact hother _
  · cases ht
    exact hother _
  · cases ht

/-- A `recv` moves the worker that called it only, and not even that one when there is data. -/
private theorem workers_stepRecv {i j : Nat} {result : Recv}
    (h : j ≠ i ∨ ∃ b bs, result = .ok (b :: bs)) (ht : s.stepRecv i result = some t) :
    t.workers j = s.workers j := by
  have hother : ∀ pc, (∀ b bs, result ≠ .ok (b :: bs)) →
      Function.update s.workers i pc j = s.workers j := by
    intro pc hempty
    rcases h with hne | ⟨b, bs, hdata⟩
    · exact Function.update_of_ne hne pc s.workers
    · exact absurd hdata (hempty b bs)
  unfold stepRecv at ht
  split at ht
  · split at ht
    · cases ht
      exact hother _ (by simp)
    · cases ht
      exact hother _ (by simp)
    · cases ht
      exact hother _ (by simp)
    · split at ht
      · cases ht
        rfl
      · cases ht
        rfl
  · cases ht

/-- In the loop of `handleRead` a worker takes no other step than `recv`. -/
private theorem reading_step {i : Nat} {fd : Fd} {events : List EpollEvent}
    {l : EpollServerLabel} (hpc : s.workers i = .reading fd events) (hl : l.floods i = true)
    (ht : s.step numWorkers l = some t) :
    t.workers i = .reading fd events := by
  rw [← hpc]
  cases l with
  | accept fd' =>
    rw [EpollServer.step] at ht
    split at ht <;> cases ht
    rfl
  | acceptor ok => rw [workers_stepAcceptor ht]
  | epollWait j reported =>
    rw [EpollServer.step] at ht
    split at ht <;> cases ht
    next hok =>
    have hne : i ≠ j := by
      rintro rfl
      rw [hpc] at hok
      cases hok.2.1
    exact Function.update_of_ne hne _ _
  | epollError j =>
    rw [EpollServer.step] at ht
    split at ht <;> cases ht
    next hok =>
    have hne : i ≠ j := by
      rintro rfl
      rw [hpc] at hok
      cases hok.2
    exact Function.update_of_ne hne _ _
  | recv j result =>
    rw [EpollServer.step] at ht
    split at ht
    · apply workers_stepRecv _ ht
      cases result with
      | error e =>
        left
        rintro rfl
        simp [EpollServerLabel.floods] at hl
      | ok chunk =>
        cases chunk with
        | nil =>
          left
          rintro rfl
          simp [EpollServerLabel.floods] at hl
        | cons b bs => exact .inr ⟨b, bs, rfl⟩
    · cases ht
  | worker j =>
    rw [EpollServer.step] at ht
    split at ht
    · apply workers_stepWorker _ ht
      rintro rfl
      simp only [stepWorker, hpc] at ht
      cases ht
    · cases ht
  | stop =>
    cases ht
    rfl
  | closeEpoll =>
    rw [EpollServer.step] at ht
    split at ht <;> cases ht
    rfl
  | closeAll =>
    rw [EpollServer.step] at ht
    split at ht <;> cases ht
    rfl

end EpollServer

/-- `stop` waits for no client that says nothing. From any state in which the flag is cleared, the
threads take a bounded number of steps as long as no connection comes in, nothing is reported and no
`recv` returns data, and none of them is ever stuck before its end; and from every state reached
with `stop` waiting for the accept thread there is such a run to the end of `stop`, after which no
descriptor is open. -/
theorem stop_waits_for_no_silent_client (numWorkers : Nat) (s : EpollServer) :
    (∀ ls t, s.isRunning = false → (∀ l ∈ ls, l.silent = true) →
      (epollServer numWorkers).run s ls = some t →
      (epollServer numWorkers).countRun (fun _ l ↦ l.ofThread) s ls ≤ s.work numWorkers ∧
      (t.acceptor ≠ .exited → ∀ ok, (t.stepAcceptor numWorkers ok).isSome) ∧
      ∀ i < numWorkers, t.workers i ≠ .exited →
        (t.stepWorker i).isSome ∨ (t.stepRecv i (.error .wouldBlock)).isSome) ∧
    ((epollServer numWorkers).ReachableWith EpollServer.StopsBetweenConnections s →
      ∃ ls t, (∀ l ∈ ls, l.silent = true) ∧ (epollServer numWorkers).run s ls = some t ∧
        t.Exited numWorkers ∧ t.epollOpen = false ∧ t.connections = ∅ ∧
        (∀ fd, t.openFds fd = none) ∧ t.fault = false ∧ ls.length ≤ s.work numWorkers + 3) := by
  constructor
  · intro ls t hflag hls hr
    obtain ⟨-, hpaid⟩ := EpollServer.epollServer_pays.run hflag hls hr
    refine ⟨by omega, fun hpc ok ↦ EpollServer.isSome_stepAcceptor hpc ok, ?_⟩
    exact fun i _ hpc ↦ EpollServer.isSome_stepWorker hpc
  · intro h
    obtain ⟨ls, r, hls, hr, hexited, hlength⟩ :=
      EpollServer.epollServer_descends.exists_run (EpollServer.inv_of_reachable h)
    have hinv : r.Inv numWorkers := by
      refine Machine.run_invariant (I := EpollServer.Inv numWorkers) ?_
        (EpollServer.inv_of_reachable h) hls hr
      exact EpollServer.epollServer_descends.keeps
    obtain ⟨t, hclose, hend⟩ := EpollServer.exists_close hinv hexited
    obtain ⟨hexited', hepoll, hconnections, hclosed, hfault⟩ := hend
    refine ⟨ls ++ [.closeEpoll, .closeAll], t, ?_, ?_, hexited', hepoll, hconnections, hclosed,
      hfault, ?_⟩
    · intro l hl
      rcases List.mem_append.mp hl with hl | hl
      · exact (hls l hl).1
      · simp only [List.mem_cons, List.not_mem_nil, or_false] at hl
        rcases hl with rfl | rfl <;> rfl
    · rw [Machine.run_append, hr]
      exact hclose
    · have hone : s.isRunning.toNat ≤ 1 := Bool.toNat_le s.isRunning
      rw [List.length_append]
      change ls.length + 2 ≤ _
      omega

/-- With one idle client connected and a worker that has just been told of its first bytes. -/
theorem stop_waits_for_no_silent_client_one : ∃ s ls t,
    s.workers 0 = .reading 5 [] ∧ (∀ l ∈ ls, EpollServerLabel.silent l = true) ∧
    (epollServer 1).run s ls = some t ∧ t.Exited 1 ∧ ∀ fd, t.openFds fd = none := by
  let m := epollServer 1
  have hrun : (m.runWith EpollServer.StopsBetweenConnections m.start [.accept 5, .acceptor true,
      .acceptor true, .acceptor true, .acceptor true, .epollWait 0 [⟨5, false, true⟩], .worker 0,
      .recv 0 (.ok [0])]).map (fun s ↦ s.workers 0) = some (.reading 5 []) := by
    decide +kernel
  obtain ⟨s, hrun, hs⟩ := Option.map_eq_some_iff.mp hrun
  have hreach := Machine.ReachableWith.run .start hrun
  obtain ⟨ls, t, hls, hr, hexited, -, -, hclosed, -⟩ :=
    (stop_waits_for_no_silent_client 1 s).2 hreach
  exact ⟨s, ls, t, hs, hls, hr, hexited, hclosed⟩

/-- But `stop` waits for a client that never stops sending: the loop of `handleRead` does not test
the flag, so as long as every `recv` of a worker finds data, the worker stays in it and the last
step of `stop` does not come, whatever the other threads do and whatever is cleared or closed. -/
theorem stop_waits_for_flooding_client (numWorkers : Nat) (s t : EpollServer) (i : Nat)
    (hi : i < numWorkers) (fd : Fd) (events : List EpollEvent)
    (hpc : s.workers i = .reading fd events) (ls : List EpollServerLabel)
    (hls : ∀ l ∈ ls, l.floods i = true) (hr : (epollServer numWorkers).run s ls = some t) :
    t.workers i = .reading fd events ∧ t.step numWorkers .closeAll = none := by
  have hstays : t.workers i = .reading fd events := by
    refine Machine.run_invariant (I := fun r ↦ r.workers i = .reading fd events) ?_ hpc hls hr
    exact fun r l r' hreading hl hstep ↦ EpollServer.reading_step hreading hl hstep
  refine ⟨hstays, ?_⟩
  rw [EpollServer.step, if_neg]
  rintro ⟨-, hworkers⟩
  have hexited := hworkers i hi
  rw [hstays] at hexited
  cases hexited

/-- The flag is cleared and the accept thread has ended while the client goes on sending. -/
theorem stop_waits_for_flooding_client_one : ∃ s t : EpollServer,
    (epollServer 1).run s [.stop, .acceptor true, .closeEpoll, .recv 0 (.ok [0])] = some t ∧
    t.isRunning = false ∧ t.acceptor = .exited ∧ t.step 1 .closeAll = none := by
  let m := epollServer 1
  let stopping : List EpollServerLabel :=
    [.stop, .acceptor true, .closeEpoll, .recv 0 (.ok [0])]
  have hrun : (m.run m.start [.accept 5, .acceptor true, .acceptor true, .acceptor true,
      .acceptor true, .epollWait 0 [⟨5, false, true⟩], .worker 0]).map (fun s ↦
        (s.workers 0, (m.run s stopping).map fun t ↦ (t.isRunning, t.acceptor))) =
      some (.reading 5 [], some (false, .exited)) := by
    decide +kernel
  obtain ⟨s, -, hs⟩ := Option.map_eq_some_iff.mp hrun
  simp only [Prod.mk.injEq] at hs
  obtain ⟨hpc, hstopping⟩ := hs
  obtain ⟨t, ht, hend⟩ := Option.map_eq_some_iff.mp hstopping
  simp only [Prod.mk.injEq] at hend
  have hfloods : ∀ l ∈ stopping, l.floods 0 = true := by decide
  obtain ⟨-, hnone⟩ := stop_waits_for_flooding_client 1 s t 0 Nat.one_pos 5 [] hpc stopping
    hfloods ht
  exact ⟨s, t, ht, hend.1, hend.2, hnone⟩

end EventStreamCore.Ingest.EpollIngestServer
