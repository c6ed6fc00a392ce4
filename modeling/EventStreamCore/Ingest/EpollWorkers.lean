import EventStreamCore.Ingest.EpollServer

/-!
# The workers keep every descriptor in one thread's care

`workerLoop`, the `recv` of `handleRead` and `closeConnection`,
`src/core/ingest/epoll.cpp:268–373,481–498`.
-/

namespace EventStreamCore.Ingest.EpollIngestServer
open EventStreamCore.Lib EventStreamCore.Events

namespace EpollServer

variable {numWorkers : Nat} {s t : EpollServer}

/-- What a worker is told of is open. -/
theorem Sound.open_of_claims (h : s.Sound numWorkers) {i : Nat} {fd : Fd}
    (hc : s.Claims i fd) : (s.openFds fd).isSome := by
  rcases hc with hinterest | htouches
  · exact h.opened fd (h.interest i fd hinterest)
  · have hw := h.workers i
    cases hpc : s.workers i with
    | closing fd' events =>
      rw [hpc] at htouches
      rcases List.mem_cons.mp htouches with rfl | hrest
      · exact (hw.closes fd (by rw [hpc]; rfl)).2
      · exact h.opened fd (hw.listed fd (by rw [hpc]; exact hrest))
    | _ => exact h.opened fd (hw.listed fd (by rw [hpc] at htouches ⊢; exact htouches))

/-- A step of a worker that changes nothing but what the worker claims leaves every descriptor
in one thread's care. -/
private theorem Sound.move (h : s.Sound numWorkers) {i : Nat} (pc : WorkerLoopPc)
    (hi : i < numWorkers) (hworkers : t.workers = Function.update s.workers i pc)
    (hacceptor : t.acceptor = s.acceptor) (hepoll : t.epollOpen = s.epollOpen)
    (hfault : t.fault = false)
    (hinterest : ∀ j fd, t.interest j fd = true → s.interest j fd = true)
    (htouches : ∀ fd ∈ pc.touches, s.Claims i fd)
    (hothers : ∀ fd, ¬s.Claims i fd →
      (fd ∈ t.connections ↔ fd ∈ s.connections) ∧ t.openFds fd = s.openFds fd)
    (hown : ∀ fd, s.Claims i fd →
      (fd ∈ t.connections → (t.openFds fd).isSome) ∧ (t.interest i fd = true → fd ∈ t.connections) ∧
      ((t.openFds fd).isSome → fd ∈ t.connections ∨ fd ∈ pc.closes))
    (hsound : t.WorkerSound i) : t.Sound numWorkers := by
  have hpc : t.workers i = pc := by rw [hworkers, Function.update_self]
  have hother : ∀ j, j ≠ i → t.workers j = s.workers j := by
    intro j hj
    rw [hworkers, Function.update_of_ne hj]
  have hclaims : ∀ j fd, t.Claims j fd → s.Claims j fd := by
    rintro j fd (hint | htouch)
    · exact .inl (hinterest j fd hint)
    · by_cases hj : j = i
      · subst hj
        rw [hpc] at htouch
        exact htouches fd htouch
      · rw [hother j hj] at htouch
        exact .inr htouch
  have hfree : ∀ j fd, j ≠ i → s.Claims j fd → ¬s.Claims i fd :=
    fun j fd hj hc hc' ↦ hj (h.exclusive j i fd hc hc')
  refine ⟨?_, ?_, ?_, ?_, ?_, ?_, ?_, ?_, ?_, hfault⟩
  · exact fun j k fd hj hk ↦ h.exclusive j k fd (hclaims j fd hj) (hclaims k fd hk)
  · intro j fd hint
    by_cases hj : j = i
    · subst hj
      exact (hown fd (hclaims j fd (.inl hint))).2.1 hint
    · have hc := hclaims j fd (.inl hint)
      exact (hothers fd (hfree j fd hj hc)).1.mpr (h.interest j fd (hinterest j fd hint))
  · intro j
    by_cases hj : j = i
    · subst hj
      exact hsound
    · have hw := h.workers j
      have htouch : ∀ fd ∈ (s.workers j).touches, ¬s.Claims i fd :=
        fun fd hfd ↦ hfree j fd hj (.inr hfd)
      refine ⟨?_, ?_, ?_, ?_⟩
      · rw [hother j hj]
        exact hw.nodup
      · intro fd hfd
        rw [hother j hj] at hfd
        have hmem := WorkerLoopPc.mem_touches_of_listed hfd
        exact (hothers fd (htouch fd hmem)).1.mpr (hw.listed fd hfd)
      · intro fd hfd
        rw [hother j hj] at hfd
        obtain ⟨hconn, hopen⟩ := hothers fd (htouch fd (WorkerLoopPc.mem_touches_of_closes hfd))
        rw [hconn, hopen]
        exact hw.closes fd hfd
      · intro fd hfd
        rw [hother j hj] at hfd
        exact Bool.eq_false_iff.mpr fun hint ↦
          Bool.eq_false_iff.mp (hw.unlinked fd hfd) (hinterest j fd hint)
  · intro fd hfd
    rw [hacceptor] at hfd
    obtain ⟨hopen, hconn, hunclaimed⟩ := h.unlisted fd hfd
    obtain ⟨hconn', hopen'⟩ := hothers fd (hunclaimed i)
    rw [hopen', hconn']
    exact ⟨hopen, hconn, fun j hc ↦ hunclaimed j (hclaims j fd hc)⟩
  · intro fd hfd
    rw [hacceptor] at hfd
    obtain ⟨hconn, hunclaimed⟩ := h.listed fd hfd
    exact ⟨(hothers fd (hunclaimed i)).1.mpr hconn, fun j hc ↦ hunclaimed j (hclaims j fd hc)⟩
  · intro fd hfd
    by_cases hc : s.Claims i fd
    · exact (hown fd hc).1 hfd
    · obtain ⟨hconn, hopen⟩ := hothers fd hc
      rw [hopen]
      exact h.opened fd (hconn.mp hfd)
  · intro fd hfd
    rw [hacceptor]
    by_cases hc : s.Claims i fd
    · rcases (hown fd hc).2.2 hfd with hconn | hcloses
      · exact .inl hconn
      · exact .inr (.inr ⟨i, hi, by rw [hpc]; exact hcloses⟩)
    · obtain ⟨hconn, hopen⟩ := hothers fd hc
      rw [hopen] at hfd
      rcases h.accounted fd hfd with hold | hold | ⟨j, hj, hcl⟩
      · exact .inl (hconn.mpr hold)
      · exact .inr (.inl hold)
      · refine .inr (.inr ⟨j, hj, ?_⟩)
        have hne : j ≠ i := by
          rintro rfl
          exact hc (.inr (WorkerLoopPc.mem_touches_of_closes hcl))
        rw [hother j hne]
        exact hcl
  · intro hadmits
    have hadmits' : s.Admitting := by
      unfold Admitting at hadmits ⊢
      rw [hacceptor] at hadmits
      exact hadmits
    rw [hepoll]
    exact h.admitting hadmits'
  · intro j hj
    rw [hother j (by omega)]
    exact h.idle j hj

/-- Unless it is about to close one, what a worker is told of is in the table. -/
private theorem Sound.mem_of_claims (h : s.Sound numWorkers) {i : Nat} {fd : Fd}
    (hcloses : (s.workers i).closes = none) (hc : s.Claims i fd) : fd ∈ s.connections := by
  rcases hc with hinterest | htouches
  · exact h.interest i fd hinterest
  · rw [← WorkerLoopPc.listed_of_closes hcloses] at htouches
    exact (h.workers i).listed fd htouches

/-- A worker that only goes on to another of its descriptors. -/
theorem Sound.setWorker (h : s.Sound numWorkers) {i : Nat} {pc : WorkerLoopPc}
    (hi : i < numWorkers) (hold : (s.workers i).closes = none)
    (hpc : pc.closes = none ∧ pc.unlinked = none) (hnodup : pc.touches.Nodup)
    (htouches : ∀ fd ∈ pc.touches, s.Claims i fd) : (s.setWorker i pc).Sound numWorkers := by
  have hself : (s.setWorker i pc).workers i = pc := by simp [EpollServer.setWorker]
  have hmem : ∀ fd, s.Claims i fd → fd ∈ s.connections := fun fd hc ↦ h.mem_of_claims hold hc
  apply Sound.move (t := s.setWorker i pc) h pc hi rfl rfl rfl h.fault (fun _ _ hint ↦ hint)
    htouches (fun _ _ ↦ ⟨Iff.rfl, rfl⟩)
  · exact fun fd hc ↦ ⟨h.opened fd, fun _ ↦ hmem fd hc, fun _ ↦ .inl (hmem fd hc)⟩
  · refine ⟨?_, ?_, ?_, ?_⟩
    · rw [hself]
      exact hnodup
    · intro fd hfd
      rw [hself, WorkerLoopPc.listed_of_closes hpc.1] at hfd
      exact hmem fd (htouches fd hfd)
    · intro fd hfd
      rw [hself, hpc.1] at hfd
      cases hfd
    · intro fd hfd
      rw [hself, hpc.2] at hfd
      cases hfd

private theorem sound_unlinking {i : Nat} {fd : Fd} {events : List EpollEvent}
    (h : s.Sound numWorkers) (hi : i < numWorkers) (hpc : s.workers i = .unlinking fd events) :
    Sound numWorkers { s.setWorker i (.erasing fd events) with
      interest := Function.update s.interest i (Function.update (s.interest i) fd false) } := by
  have hold : (s.workers i).closes = none := by rw [hpc]; rfl
  have hmem : ∀ fd, s.Claims i fd → fd ∈ s.connections := fun fd hc ↦ h.mem_of_claims hold hc
  have htouches : ∀ fd' ∈ fd :: events.map EpollEvent.fd, s.Claims i fd' :=
    fun fd' hfd' ↦ .inr (by rw [hpc]; exact hfd')
  refine Sound.move (t := { s.setWorker i (.erasing fd events) with
      interest := Function.update s.interest i (Function.update (s.interest i) fd false) })
    h (.erasing fd events) hi rfl rfl rfl h.fault ?_ htouches (fun _ _ ↦ ⟨Iff.rfl, rfl⟩) ?_ ?_
  · intro j fd' hint
    by_cases hj : j = i
    · subst hj
      by_cases hfd : fd' = fd
      · subst hfd
        simp at hint
      · simpa [hfd] using hint
    · simpa [hj] using hint
  · exact fun fd' hc ↦ ⟨h.opened fd', fun _ ↦ hmem fd' hc, fun _ ↦ .inl (hmem fd' hc)⟩
  · refine ⟨?_, ?_, ?_, ?_⟩
    · have hnodup := (h.workers i).nodup
      rw [hpc] at hnodup
      simpa [EpollServer.setWorker, WorkerLoopPc.touches] using hnodup
    · intro fd' hfd'
      apply hmem fd' (htouches fd' _)
      simpa [EpollServer.setWorker, WorkerLoopPc.listed, WorkerLoopPc.touches] using hfd'
    · intro fd' hfd'
      simp [EpollServer.setWorker, WorkerLoopPc.closes] at hfd'
    · intro fd' hfd'
      simp only [EpollServer.setWorker, Function.update_self, WorkerLoopPc.unlinked,
        Option.mem_def, Option.some.injEq] at hfd'
      subst hfd'
      simp

private theorem sound_erasing {i : Nat} {fd : Fd} {events : List EpollEvent}
    (h : s.Sound numWorkers) (hi : i < numWorkers) (hpc : s.workers i = .erasing fd events) :
    ((s.eraseConnection fd).setWorker i (.closing fd events)).Sound numWorkers := by
  have hold : (s.workers i).closes = none := by rw [hpc]; rfl
  have hmem : ∀ fd, s.Claims i fd → fd ∈ s.connections := fun fd hc ↦ h.mem_of_claims hold hc
  have htouches : ∀ fd' ∈ fd :: events.map EpollEvent.fd, s.Claims i fd' :=
    fun fd' hfd' ↦ .inr (by rw [hpc]; exact hfd')
  have hfd : s.Claims i fd := htouches fd List.mem_cons_self
  have hw := h.workers i
  have hnodup : (fd :: events.map EpollEvent.fd).Nodup := by
    have := hw.nodup
    rwa [hpc] at this
  have hunlinked : s.interest i fd = false := hw.unlinked fd (by rw [hpc]; rfl)
  refine Sound.move (t := (s.eraseConnection fd).setWorker i (.closing fd events)) h
    (.closing fd events) hi rfl rfl rfl ?_ (fun _ _ hint ↦ hint) htouches ?_ ?_ ?_
  · have hin : (s.connections.lookup fd).isSome := AList.lookup_isSome.mpr (hmem fd hfd)
    simp [EpollServer.setWorker, eraseConnection, check, hin, h.fault]
  · intro fd' hc
    have hne : fd' ≠ fd := by
      rintro rfl
      exact hc hfd
    refine ⟨?_, rfl⟩
    change fd' ∈ s.connections.erase fd ↔ _
    rw [AList.mem_erase]
    exact and_iff_right hne
  · intro fd' hc
    by_cases hne : fd' = fd
    · subst hne
      refine ⟨?_, ?_, fun _ ↦ .inr rfl⟩
      · intro hin
        exact absurd rfl (AList.mem_erase.mp hin).1
      · intro hint
        exact absurd hint (Bool.eq_false_iff.mp hunlinked)
    · have hin : fd' ∈ s.connections.erase fd := AList.mem_erase.mpr ⟨hne, hmem fd' hc⟩
      exact ⟨fun _ ↦ h.opened fd' (hmem fd' hc), fun _ ↦ hin, fun _ ↦ .inl hin⟩
  · refine ⟨?_, ?_, ?_, ?_⟩
    · simpa [EpollServer.setWorker, WorkerLoopPc.touches] using hnodup
    · intro fd' hfd'
      simp only [EpollServer.setWorker, Function.update_self, WorkerLoopPc.listed] at hfd'
      have hne : fd' ≠ fd := by
        rintro rfl
        exact (List.nodup_cons.mp hnodup).1 hfd'
      exact AList.mem_erase.mpr ⟨hne, hmem fd' (htouches fd' (List.mem_cons_of_mem _ hfd'))⟩
    · intro fd' hfd'
      simp only [EpollServer.setWorker, Function.update_self, WorkerLoopPc.closes,
        Option.mem_def, Option.some.injEq] at hfd'
      subst hfd'
      exact ⟨fun hin ↦ (AList.mem_erase.mp hin).1 rfl, h.opened fd (hmem fd hfd)⟩
    · intro fd' hfd'
      simp [EpollServer.setWorker, WorkerLoopPc.unlinked] at hfd'

private theorem sound_closing {i : Nat} {fd : Fd} {events : List EpollEvent}
    (h : s.Sound numWorkers) (hi : i < numWorkers) (hpc : s.workers i = .closing fd events) :
    ((s.closeFd fd).setWorker i (.counting events)).Sound numWorkers := by
  have hw := h.workers i
  have hfd : s.Claims i fd := .inr (by rw [hpc]; exact List.mem_cons_self)
  obtain ⟨hnotin, hopen⟩ := hw.closes fd (by rw [hpc]; rfl)
  have hnodup : (fd :: events.map EpollEvent.fd).Nodup := by
    have := hw.nodup
    rwa [hpc] at this
  have hlisted : ∀ fd' ∈ events.map EpollEvent.fd, fd' ∈ s.connections :=
    fun fd' hfd' ↦ hw.listed fd' (by rw [hpc]; exact hfd')
  have hopens : ∀ fd', fd' ≠ fd → (s.closeFd fd).openFds fd' = s.openFds fd' :=
    fun fd' hne ↦ Function.update_of_ne hne _ _
  apply Sound.move (t := (s.closeFd fd).setWorker i (.counting events)) h (.counting events) hi
    rfl rfl rfl
  · simp [EpollServer.setWorker, closeFd, check, hopen, h.fault]
  · intro j fd' hint
    exact (Bool.and_eq_true _ _ ▸ hint).1
  · exact fun fd' hfd' ↦ .inr (by rw [hpc]; exact List.mem_cons_of_mem _ hfd')
  · intro fd' hc
    refine ⟨Iff.rfl, hopens fd' ?_⟩
    rintro rfl
    exact hc hfd
  · intro fd' hc
    by_cases hne : fd' = fd
    · subst hne
      refine ⟨fun hin ↦ absurd hin hnotin, ?_, ?_⟩
      · intro hint
        simp [EpollServer.setWorker, closeFd] at hint
      · intro hsome
        simp [EpollServer.setWorker, closeFd] at hsome
    · have hin : fd' ∈ s.connections := by
        rcases hc with hint | htouch
        · exact h.interest i fd' hint
        · rw [hpc] at htouch
          exact hlisted fd' ((List.mem_cons.mp htouch).resolve_left hne)
      refine ⟨fun _ ↦ ?_, fun _ ↦ hin, fun _ ↦ .inl hin⟩
      change ((s.closeFd fd).openFds fd').isSome
      rw [hopens fd' hne]
      exact h.opened fd' hin
  · refine ⟨?_, ?_, ?_, ?_⟩
    · simpa [EpollServer.setWorker, WorkerLoopPc.touches] using (List.nodup_cons.mp hnodup).2
    · intro fd' hfd'
      simp only [EpollServer.setWorker, Function.update_self, WorkerLoopPc.listed,
        WorkerLoopPc.touches] at hfd'
      exact hlisted fd' hfd'
    · intro fd' hfd'
      simp [EpollServer.setWorker, WorkerLoopPc.closes] at hfd'
    · intro fd' hfd'
      simp [EpollServer.setWorker, WorkerLoopPc.unlinked] at hfd'

/-- The counters and the framing states of entries do not matter here. -/
theorem Sound.congr (h : s.Sound numWorkers) (hacceptor : t.acceptor = s.acceptor)
    (hepoll : t.epollOpen = s.epollOpen) (hworkers : t.workers = s.workers)
    (hconnections : ∀ fd, fd ∈ t.connections ↔ fd ∈ s.connections)
    (hopen : t.openFds = s.openFds) (hinterest : t.interest = s.interest)
    (hfault : t.fault = s.fault) : t.Sound numWorkers := by
  have hclaims : ∀ i fd, t.Claims i fd ↔ s.Claims i fd := by
    intro i fd
    rw [Claims, Claims, hworkers, hinterest]
  refine ⟨?_, ?_, ?_, ?_, ?_, ?_, ?_, ?_, hworkers ▸ h.idle, hfault.trans h.fault⟩
  · intro i j fd hi hj
    exact h.exclusive i j fd ((hclaims i fd).mp hi) ((hclaims j fd).mp hj)
  · intro i fd hint
    rw [hinterest] at hint
    exact (hconnections fd).mpr (h.interest i fd hint)
  · intro i
    have hw := h.workers i
    refine ⟨?_, ?_, ?_, ?_⟩
    · rw [hworkers]
      exact hw.nodup
    · intro fd hfd
      rw [hworkers] at hfd
      exact (hconnections fd).mpr (hw.listed fd hfd)
    · intro fd hfd
      rw [hworkers] at hfd
      rw [hconnections fd, hopen]
      exact hw.closes fd hfd
    · intro fd hfd
      rw [hworkers] at hfd
      rw [hinterest]
      exact hw.unlinked fd hfd
  · intro fd hfd
    rw [hacceptor] at hfd
    obtain ⟨hsome, hnotin, hfree⟩ := h.unlisted fd hfd
    rw [hopen, hconnections fd]
    exact ⟨hsome, hnotin, fun i hc ↦ hfree i ((hclaims i fd).mp hc)⟩
  · intro fd hfd
    rw [hacceptor] at hfd
    obtain ⟨hin, hfree⟩ := h.listed fd hfd
    exact ⟨(hconnections fd).mpr hin, fun i hc ↦ hfree i ((hclaims i fd).mp hc)⟩
  · intro fd hfd
    rw [hopen]
    exact h.opened fd ((hconnections fd).mp hfd)
  · intro fd hfd
    rw [hopen] at hfd
    rw [hacceptor, hworkers, hconnections fd]
    exact h.accounted fd hfd
  · intro hadmits
    rw [hepoll]
    apply h.admitting
    unfold Admitting at hadmits ⊢
    rw [hacceptor] at hadmits
    exact hadmits

/-- With the reported events of a worker, its descriptors. -/
private theorem Sound.batch (h : s.Sound numWorkers) {i : Nat} {event : EpollEvent}
    {events : List EpollEvent} (hpc : s.workers i = .batch (event :: events)) :
    (event.fd :: events.map EpollEvent.fd).Nodup ∧ event.fd ∈ s.connections ∧
      ∀ fd ∈ event.fd :: events.map EpollEvent.fd, s.Claims i fd := by
  have hw := h.workers i
  refine ⟨?_, ?_, ?_⟩
  · have := hw.nodup
    rwa [hpc] at this
  · apply hw.listed
    rw [hpc]
    exact List.mem_cons_self
  · intro fd hfd
    right
    rw [hpc]
    exact hfd

theorem sound_stepWorker {i : Nat} (h : s.Sound numWorkers) (hi : i < numWorkers)
    (ht : s.stepWorker i = some t) : t.Sound numWorkers := by
  unfold stepWorker at ht
  split at ht
  · next hpc =>
    split at ht
    · cases ht
      exact h
    · cases ht
      exact h.setWorker hi (by rw [hpc]; rfl) ⟨rfl, rfl⟩ List.nodup_nil
        fun fd hfd ↦ absurd hfd List.not_mem_nil
  · next hpc =>
    cases ht
    exact h.setWorker hi (by rw [hpc]; rfl) ⟨rfl, rfl⟩ List.nodup_nil
      fun fd hfd ↦ absurd hfd List.not_mem_nil
  · next event events hpc =>
    obtain ⟨hnodup, hin, hclaims⟩ := h.batch hpc
    have hold : (s.workers i).closes = none := by rw [hpc]; rfl
    split at ht
    · cases ht
      exact h.setWorker hi hold ⟨rfl, rfl⟩ hnodup hclaims
    · split at ht
      · split at ht
        · cases ht
          exact h.setWorker hi hold ⟨rfl, rfl⟩ hnodup hclaims
        · next hnone =>
          rw [AList.lookup_eq_none] at hnone
          exact absurd hin hnone
      · cases ht
        exact h.setWorker hi hold ⟨rfl, rfl⟩ (List.nodup_cons.mp hnodup).2
          fun fd hfd ↦ hclaims fd (List.mem_cons_of_mem _ hfd)
  · cases ht
  · next fd events hpc =>
    cases ht
    exact sound_unlinking h hi hpc
  · next fd events hpc =>
    cases ht
    exact sound_erasing h hi hpc
  · next fd events hpc =>
    cases ht
    exact sound_closing h hi hpc
  · next events hpc =>
    cases ht
    have hw := (h.workers i).nodup
    rw [hpc] at hw
    have hset : (s.setWorker i (.batch events)).Sound numWorkers :=
      h.setWorker hi (by rw [hpc]; rfl) ⟨rfl, rfl⟩ hw fun fd hfd ↦ .inr (by rw [hpc]; exact hfd)
    exact hset.congr rfl rfl rfl (fun _ ↦ Iff.rfl) rfl rfl rfl
  · cases ht

/-- What a `recv` leads to: the worker goes on to close the connection or to its other events,
or the bytes are parsed. -/
theorem stepRecv_cases {i : Nat} {result : Recv} (h : s.Sound numWorkers)
    (ht : s.stepRecv i result = some t) :
    ∃ fd events, s.workers i = .reading fd events ∧
      (t = s.setWorker i (.unlinking fd events) ∨ t = s.setWorker i (.batch events) ∨
        ∃ b bs state k, result = .ok (b :: bs) ∧ s.connections.lookup fd = some state ∧
          s.openFds fd = some k ∧
          t = { s with
            connections := s.connections.insert fd
              (processBuffer { state with buffer := state.buffer ++ b :: bs }).2
            received := Function.update s.received k (s.received k ++ [b :: bs])
            handed := Function.update s.handed k (s.handed k ++
              (processBuffer { state with buffer := state.buffer ++ b :: bs }).1) }) := by
  unfold stepRecv at ht
  split at ht
  · next fd events hpc =>
    refine ⟨fd, events, hpc, ?_⟩
    split at ht
    · cases ht
      exact .inl rfl
    · cases ht
      exact .inr (.inl rfl)
    · cases ht
      exact .inl rfl
    · next chunk hchunk =>
      have hin : fd ∈ s.connections := by
        apply (h.workers i).listed
        rw [hpc]
        exact List.mem_cons_self
      split at ht
      · next state k hstate hk =>
        cases ht
        cases chunk with
        | nil => exact absurd rfl hchunk
        | cons b bs => exact .inr (.inr ⟨b, bs, state, k, rfl, hstate, hk, rfl⟩)
      · next hnone =>
        obtain ⟨state, hstate⟩ := Option.isSome_iff_exists.mp (AList.lookup_isSome.mpr hin)
        obtain ⟨k, hk⟩ := Option.isSome_iff_exists.mp (h.opened fd hin)
        exact absurd hk (hnone state k hstate)
  · cases ht

theorem sound_stepRecv {i : Nat} {result : Recv} (h : s.Sound numWorkers)
    (hi : i < numWorkers) (ht : s.stepRecv i result = some t) : t.Sound numWorkers := by
  obtain ⟨fd, events, hpc, hcases⟩ := stepRecv_cases h ht
  have hold : (s.workers i).closes = none := by rw [hpc]; rfl
  have hnodup : (fd :: events.map EpollEvent.fd).Nodup := by
    have := (h.workers i).nodup
    rwa [hpc] at this
  have hclaims : ∀ fd' ∈ fd :: events.map EpollEvent.fd, s.Claims i fd' :=
    fun fd' hfd' ↦ .inr (by rw [hpc]; exact hfd')
  rcases hcases with rfl | rfl | ⟨b, bs, state, k, -, hstate, -, rfl⟩
  · exact h.setWorker hi hold ⟨rfl, rfl⟩ hnodup hclaims
  · exact h.setWorker hi hold ⟨rfl, rfl⟩ (List.nodup_cons.mp hnodup).2
      fun fd' hfd' ↦ hclaims fd' (List.mem_cons_of_mem _ hfd')
  · refine h.congr rfl rfl rfl (fun fd' ↦ ?_) rfl rfl rfl
    rw [AList.mem_insert]
    refine or_iff_right_of_imp ?_
    rintro rfl
    exact h.mem_of_claims hold (hclaims _ List.mem_cons_self)

end EpollServer
end EventStreamCore.Ingest.EpollIngestServer
