import EventStreamCore.Ingest.EpollWorkers

/-!
# So do the accept thread and stop

`acceptConnections` and `epollAdd`, `src/core/ingest/epoll.cpp:198–253,500–516`, and the steps of
`stop`, lines 145–185, as long as it does not clear the epoll descriptors under the accept thread.
-/

namespace EventStreamCore.Ingest.EpollIngestServer
open EventStreamCore.Lib EventStreamCore.Events

namespace EpollServer

variable {numWorkers : Nat} {s t : EpollServer}

/-- A step of the accept thread that changes nothing but the descriptor in its hands leaves every
descriptor in one thread's care. -/
private theorem Sound.moveAcceptor (h : s.Sound numWorkers) (held : Option Fd)
    (hworkers : t.workers = s.workers) (hadmits : t.Admitting → t.epollOpen)
    (hfault : t.fault = false) (hfree : ∀ fd ∈ held, ∀ i, ¬s.Claims i fd)
    (hold : ∀ fd ∈ s.acceptor.unlisted, fd ∈ held)
    (hothers : ∀ fd, fd ∉ held → (fd ∈ t.connections ↔ fd ∈ s.connections) ∧
      t.openFds fd = s.openFds fd ∧ ∀ i, t.interest i fd = s.interest i fd)
    (hopen : ∀ fd ∈ held, (fd ∈ t.connections → (t.openFds fd).isSome) ∧
      ((t.openFds fd).isSome → fd ∈ t.connections ∨ fd ∈ t.acceptor.unlisted))
    (hinterest : ∀ fd ∈ held, (∀ i, t.interest i fd = true → fd ∈ t.connections) ∧
      ∀ i j, t.interest i fd = true → t.interest j fd = true → i = j)
    (hunlisted : ∀ fd ∈ t.acceptor.unlisted, fd ∈ held ∧ (t.openFds fd).isSome ∧
      fd ∉ t.connections ∧ ∀ i, t.interest i fd = false)
    (hlisted : ∀ fd ∈ t.acceptor.listed, fd ∈ held ∧ fd ∈ t.connections ∧
      ∀ i, t.interest i fd = false) : t.Sound numWorkers := by
  have hclaims : ∀ i fd, fd ∉ held → t.Claims i fd → s.Claims i fd := by
    intro i fd hfd hc
    rw [Claims, hworkers, (hothers fd hfd).2.2 i] at hc
    exact hc
  have htold : ∀ i fd, fd ∈ held → t.Claims i fd → t.interest i fd = true := by
    rintro i fd hfd (hint | htouch)
    · exact hint
    · rw [hworkers] at htouch
      exact absurd (.inr htouch) (hfree fd hfd i)
  refine ⟨?_, ?_, ?_, ?_, ?_, ?_, ?_, hadmits, hworkers ▸ h.idle, hfault⟩
  · intro i j fd hi hj
    by_cases hfd : fd ∈ held
    · exact (hinterest fd hfd).2 i j (htold i fd hfd hi) (htold j fd hfd hj)
    · exact h.exclusive i j fd (hclaims i fd hfd hi) (hclaims j fd hfd hj)
  · intro i fd hint
    by_cases hfd : fd ∈ held
    · exact (hinterest fd hfd).1 i hint
    · rw [(hothers fd hfd).2.2 i] at hint
      exact (hothers fd hfd).1.mpr (h.interest i fd hint)
  · intro i
    have hw := h.workers i
    have hmine : ∀ fd ∈ (s.workers i).touches, fd ∉ held :=
      fun fd htouch hfd ↦ hfree fd hfd i (.inr htouch)
    refine ⟨?_, ?_, ?_, ?_⟩
    · rw [hworkers]
      exact hw.nodup
    · intro fd hfd
      rw [hworkers] at hfd
      have hother := hothers fd (hmine fd (WorkerLoopPc.mem_touches_of_listed hfd))
      exact hother.1.mpr (hw.listed fd hfd)
    · intro fd hfd
      rw [hworkers] at hfd
      have hother := hothers fd (hmine fd (WorkerLoopPc.mem_touches_of_closes hfd))
      rw [hother.1, hother.2.1]
      exact hw.closes fd hfd
    · intro fd hfd
      rw [hworkers] at hfd
      have htouch : fd ∈ (s.workers i).touches := by
        cases hpc : s.workers i with
        | erasing fd' events =>
          rw [hpc] at hfd
          cases hfd
          exact List.mem_cons_self
        | _ =>
          rw [hpc] at hfd
          cases hfd
      rw [(hothers fd (hmine fd htouch)).2.2 i]
      exact hw.unlinked fd hfd
  · intro fd hfd
    obtain ⟨hheld, hsome, hnotin, hnone⟩ := hunlisted fd hfd
    refine ⟨hsome, hnotin, fun i hc ↦ ?_⟩
    exact Bool.eq_false_iff.mp (hnone i) (htold i fd hheld hc)
  · intro fd hfd
    obtain ⟨hheld, hin, hnone⟩ := hlisted fd hfd
    exact ⟨hin, fun i hc ↦ Bool.eq_false_iff.mp (hnone i) (htold i fd hheld hc)⟩
  · intro fd hin
    by_cases hfd : fd ∈ held
    · exact (hopen fd hfd).1 hin
    · rw [(hothers fd hfd).2.1]
      exact h.opened fd ((hothers fd hfd).1.mp hin)
  · intro fd hsome
    by_cases hfd : fd ∈ held
    · rcases (hopen fd hfd).2 hsome with hin | hun
      · exact .inl hin
      · exact .inr (.inl hun)
    · rw [(hothers fd hfd).2.1] at hsome
      rw [(hothers fd hfd).1, hworkers]
      rcases h.accounted fd hsome with hin | hun | hworker
      · exact .inl hin
      · exact absurd (hold fd hun) hfd
      · exact .inr (.inr hworker)

private theorem not_mem_some {fd fd' : Fd} (h : fd' ∉ some fd) : fd' ≠ fd := by
  rintro rfl
  exact h rfl

private theorem no_interest {fd : Fd} (hfree : ∀ i, ¬s.Claims i fd) (i : Nat) :
    s.interest i fd = false :=
  Bool.eq_false_iff.mpr fun hint ↦ hfree i (.inl hint)

private theorem sound_accept {fd : Fd} (h : s.Sound numWorkers) (hepoll : s.epollOpen)
    (hacceptor : s.acceptor = .accepting) (hnone : (s.openFds fd).isNone) :
    Sound numWorkers { s with
      openFds := Function.update s.openFds fd (some s.arrivals)
      arrivals := s.arrivals + 1
      acceptor := .accepted fd } := by
  have hclosed : ¬(s.openFds fd).isSome := by simpa using hnone
  have hfree : ∀ i, ¬s.Claims i fd := fun i hc ↦ hclosed (h.open_of_claims hc)
  have hnotin : fd ∉ s.connections := fun hin ↦ hclosed (h.opened fd hin)
  refine h.moveAcceptor (some fd) rfl (fun _ ↦ hepoll) h.fault ?_ ?_ ?_ ?_ ?_ ?_ ?_
  · rintro fd' ⟨⟩
    exact hfree
  · intro fd' hfd'
    rw [hacceptor] at hfd'
    cases hfd'
  · intro fd' hne
    exact ⟨Iff.rfl, Function.update_of_ne (not_mem_some hne) _ _, fun _ ↦ rfl⟩
  · rintro fd' ⟨⟩
    exact ⟨fun hin ↦ absurd hin hnotin, fun _ ↦ .inr rfl⟩
  · rintro fd' ⟨⟩
    exact ⟨fun i hint ↦ h.interest i fd hint,
      fun i j hi hj ↦ h.exclusive i j fd (.inl hi) (.inl hj)⟩
  · rintro fd' ⟨⟩
    refine ⟨rfl, ?_, hnotin, no_interest hfree⟩
    simp
  · rintro fd' ⟨⟩

private theorem sound_stepAcceptor {ok : Bool} (h : s.Sound numWorkers)
    (ht : s.stepAcceptor numWorkers ok = some t) : t.Sound numWorkers := by
  unfold stepAcceptor at ht
  cases hpc : s.acceptor with
  | accepting =>
    simp only [hpc] at ht
    split at ht
    · cases ht
      exact h
    · cases ht
      refine h.moveAcceptor none rfl (fun hadmits ↦ by cases hadmits) h.fault ?_ ?_ ?_ ?_ ?_ ?_ ?_
      · rintro fd ⟨⟩
      · intro fd hfd
        rw [hpc] at hfd
        cases hfd
      · exact fun fd _ ↦ ⟨Iff.rfl, rfl, fun _ ↦ rfl⟩
      · rintro fd ⟨⟩
      · rintro fd ⟨⟩
      · rintro fd ⟨⟩
      · rintro fd ⟨⟩
  | accepted fd =>
    simp only [hpc] at ht
    cases ht
    obtain ⟨hsome, hnotin, hfree⟩ := h.unlisted fd (by rw [hpc]; rfl)
    have hun : (if ok then AcceptorPc.registering fd else .closing fd).unlisted = some fd := by
      cases ok <;> rfl
    refine h.moveAcceptor (some fd) rfl ?_ h.fault ?_ ?_ ?_ ?_ ?_ ?_ ?_
    · exact fun _ ↦ h.admitting (by rw [Admitting, hpc]; trivial)
    · rintro fd' ⟨⟩
      exact hfree
    · intro fd' hfd'
      rw [hpc] at hfd'
      exact hfd'
    · exact fun fd' _ ↦ ⟨Iff.rfl, rfl, fun _ ↦ rfl⟩
    · rintro fd' ⟨⟩
      refine ⟨fun _ ↦ hsome, fun _ ↦ .inr ?_⟩
      rw [hun]
      rfl
    · rintro fd' ⟨⟩
      exact ⟨fun i hint ↦ h.interest i fd hint,
        fun i j hi hj ↦ h.exclusive i j fd (.inl hi) (.inl hj)⟩
    · intro fd' hfd'
      rw [hun] at hfd'
      cases hfd'
      exact ⟨rfl, hsome, hnotin, no_interest hfree⟩
    · intro fd' hfd'
      cases ok <;> cases hfd'
  | registering fd =>
    simp only [hpc] at ht
    cases ht
    obtain ⟨hsome, hnotin, hfree⟩ := h.unlisted fd (by rw [hpc]; rfl)
    have hnone : s.connections.lookup fd = none := AList.lookup_eq_none.mpr hnotin
    have hconnections : (s.emplaceConnection fd).connections =
        s.connections.insert fd .initial := by
      simp [emplaceConnection, hnone]
    apply Sound.moveAcceptor (t := { s.emplaceConnection fd with acceptor := .adding fd }) h
      (some fd) rfl
    · exact fun _ ↦ h.admitting (by rw [Admitting, hpc]; trivial)
    · simp [emplaceConnection, check, hnone, h.fault]
    · rintro fd' ⟨⟩
      exact hfree
    · intro fd' hfd'
      rw [hpc] at hfd'
      exact hfd'
    · intro fd' hne
      refine ⟨?_, rfl, fun _ ↦ rfl⟩
      change fd' ∈ (s.emplaceConnection fd).connections ↔ _
      rw [hconnections, AList.mem_insert]
      exact or_iff_right (not_mem_some hne)
    · rintro fd' ⟨⟩
      refine ⟨fun _ ↦ hsome, fun _ ↦ .inl ?_⟩
      change fd ∈ (s.emplaceConnection fd).connections
      rw [hconnections, AList.mem_insert]
      exact .inl rfl
    · rintro fd' ⟨⟩
      exact ⟨fun i hint ↦ absurd hint (Bool.eq_false_iff.mp (no_interest hfree i)),
        fun i j hi hj ↦ h.exclusive i j fd (.inl hi) (.inl hj)⟩
    · rintro fd' ⟨⟩
    · rintro fd' ⟨⟩
      refine ⟨rfl, ?_, no_interest hfree⟩
      change fd ∈ (s.emplaceConnection fd).connections
      rw [hconnections, AList.mem_insert]
      exact .inl rfl
  | adding fd =>
    have hepoll : s.epollOpen = true := h.admitting (by rw [Admitting, hpc]; trivial)
    obtain ⟨hin, hfree⟩ := h.listed fd (by rw [hpc]; rfl)
    simp only [hpc, hepoll, if_true] at ht
    cases ok with
    | true =>
      cases ht
      -- the worker in turn is the only one to be told of the descriptor
      have hwhose : ∀ i, Function.update s.interest (s.nextWorker % numWorkers)
          (Function.update (s.interest (s.nextWorker % numWorkers)) fd true) i fd = true →
          i = s.nextWorker % numWorkers := by
        intro i hint
        by_contra hne
        rw [Function.update_of_ne hne, no_interest hfree] at hint
        cases hint
      refine h.moveAcceptor (some fd) rfl (fun hadmits ↦ by cases hadmits) h.fault
        ?_ ?_ ?_ ?_ ?_ ?_ ?_
      · rintro fd' ⟨⟩
        exact hfree
      · intro fd' hfd'
        rw [hpc] at hfd'
        cases hfd'
      · intro fd' hne
        refine ⟨Iff.rfl, rfl, fun i ↦ ?_⟩
        dsimp only
        by_cases hi : i = s.nextWorker % numWorkers
        · rw [hi, Function.update_self, Function.update_of_ne (not_mem_some hne)]
        · rw [Function.update_of_ne hi]
      · rintro fd' ⟨⟩
        exact ⟨fun _ ↦ h.opened fd hin, fun _ ↦ .inl hin⟩
      · rintro fd' ⟨⟩
        exact ⟨fun _ _ ↦ hin, fun i j hi hj ↦ (hwhose i hi).trans (hwhose j hj).symm⟩
      · rintro fd' ⟨⟩
      · rintro fd' ⟨⟩
    | false =>
      cases ht
      refine h.moveAcceptor (some fd) rfl (fun hadmits ↦ by cases hadmits) h.fault
        ?_ ?_ ?_ ?_ ?_ ?_ ?_
      · rintro fd' ⟨⟩
        exact hfree
      · intro fd' hfd'
        rw [hpc] at hfd'
        cases hfd'
      · exact fun fd' _ ↦ ⟨Iff.rfl, rfl, fun _ ↦ rfl⟩
      · rintro fd' ⟨⟩
        exact ⟨fun _ ↦ h.opened fd hin, fun _ ↦ .inl hin⟩
      · rintro fd' ⟨⟩
        exact ⟨fun _ _ ↦ hin, fun i j hi hj ↦ h.exclusive i j fd (.inl hi) (.inl hj)⟩
      · rintro fd' ⟨⟩
      · rintro fd' ⟨⟩
        exact ⟨rfl, hin, no_interest hfree⟩
  | counting =>
    simp only [hpc] at ht
    cases ht
    refine h.moveAcceptor none rfl (fun hadmits ↦ by cases hadmits) h.fault ?_ ?_ ?_ ?_ ?_ ?_ ?_
    · rintro fd ⟨⟩
    · intro fd hfd
      rw [hpc] at hfd
      cases hfd
    · exact fun fd _ ↦ ⟨Iff.rfl, rfl, fun _ ↦ rfl⟩
    · rintro fd ⟨⟩
    · rintro fd ⟨⟩
    · rintro fd ⟨⟩
    · rintro fd ⟨⟩
  | abandoning fd =>
    simp only [hpc] at ht
    cases ht
    obtain ⟨hin, hfree⟩ := h.listed fd (by rw [hpc]; rfl)
    have hsome : (s.connections.lookup fd).isSome := AList.lookup_isSome.mpr hin
    have hnotin : fd ∉ s.connections.erase fd := fun hmem ↦ (AList.mem_erase.mp hmem).1 rfl
    apply Sound.moveAcceptor (t := { s.eraseConnection fd with acceptor := .closing fd }) h
      (some fd) rfl (fun hadmits ↦ by cases hadmits)
    · simp [eraseConnection, check, hsome, h.fault]
    · rintro fd' ⟨⟩
      exact hfree
    · intro fd' hfd'
      rw [hpc] at hfd'
      cases hfd'
    · intro fd' hne
      refine ⟨?_, rfl, fun _ ↦ rfl⟩
      change fd' ∈ s.connections.erase fd ↔ _
      rw [AList.mem_erase]
      exact and_iff_right (not_mem_some hne)
    · rintro fd' ⟨⟩
      exact ⟨fun _ ↦ h.opened fd hin, fun _ ↦ .inr rfl⟩
    · rintro fd' ⟨⟩
      exact ⟨fun i hint ↦ absurd hint (Bool.eq_false_iff.mp (no_interest hfree i)),
        fun i j hi hj ↦ h.exclusive i j fd (.inl hi) (.inl hj)⟩
    · rintro fd' ⟨⟩
      exact ⟨rfl, h.opened fd hin, hnotin, no_interest hfree⟩
    · rintro fd' ⟨⟩
  | closing fd =>
    simp only [hpc] at ht
    cases ht
    obtain ⟨hsome, hnotin, hfree⟩ := h.unlisted fd (by rw [hpc]; rfl)
    apply Sound.moveAcceptor (t := { s.closeFd fd with acceptor := .accepting }) h (some fd) rfl
      (fun hadmits ↦ by cases hadmits)
    · simp [closeFd, check, hsome, h.fault]
    · rintro fd' ⟨⟩
      exact hfree
    · intro fd' hfd'
      rw [hpc] at hfd'
      exact hfd'
    · intro fd' hne
      refine ⟨Iff.rfl, Function.update_of_ne (not_mem_some hne) _ _, fun i ↦ ?_⟩
      simp [closeFd, not_mem_some hne]
    · rintro fd' ⟨⟩
      refine ⟨fun hin ↦ absurd hin hnotin, fun hopen ↦ ?_⟩
      simp [closeFd] at hopen
    · rintro fd' ⟨⟩
      refine ⟨fun i hint ↦ ?_, fun i j hi _ ↦ ?_⟩
      · simp [closeFd] at hint
      · simp [closeFd] at hi
    · rintro fd' ⟨⟩
    · rintro fd' ⟨⟩
  | exited =>
    simp only [hpc] at ht
    cases ht

/-! ### The other steps -/

/-- Between two connections the accept thread does not need the epoll descriptors. -/
private theorem sound_closeEpoll (h : s.Sound numWorkers) (hadmits : ¬s.Admitting) :
    Sound numWorkers { s with epollOpen := false } where
  exclusive := h.exclusive
  interest := h.interest
  workers i := ⟨(h.workers i).nodup, (h.workers i).listed, (h.workers i).closes,
    (h.workers i).unlinked⟩
  unlisted := h.unlisted
  listed := h.listed
  opened := h.opened
  accounted := h.accounted
  admitting ha := absurd ha hadmits
  idle := h.idle
  fault := h.fault

/-- With all threads gone, only the table has open descriptors. -/
theorem open_iff_of_exited (h : s.Sound numWorkers) (hacceptor : s.acceptor = .exited)
    (hworkers : ∀ i < numWorkers, s.workers i = .exited) (fd : Fd) :
    (s.openFds fd).isSome ↔ fd ∈ s.connections := by
  constructor
  · intro hsome
    rcases h.accounted fd hsome with hin | hun | ⟨i, hi, hcloses⟩
    · exact hin
    · rw [hacceptor] at hun
      cases hun
    · rw [hworkers i hi] at hcloses
      cases hcloses
  · exact h.opened fd

private theorem sound_closeAll (h : s.Sound numWorkers) (hacceptor : s.acceptor = .exited)
    (hworkers : ∀ i < numWorkers, s.workers i = .exited) :
    Sound numWorkers { s with
      openFds := fun fd ↦ if fd ∈ s.connections.keys then none else s.openFds fd
      interest := fun i fd ↦ s.interest i fd && fd ∉ s.connections.keys
      connections := ∅ } := by
  have hnothing : ∀ i, (s.workers i).touches = [] := by
    intro i
    by_cases hi : i < numWorkers
    · rw [hworkers i hi]
      rfl
    · rw [h.idle i (by omega)]
      rfl
  have hnone : ∀ i fd, (s.interest i fd && fd ∉ s.connections.keys) = false := by
    intro i fd
    cases hint : s.interest i fd with
    | false => rfl
    | true =>
      have hin := h.interest i fd hint
      rw [AList.mem_keys] at hin
      simp [hin]
  have hclosed : ∀ fd, (if fd ∈ s.connections.keys then none else s.openFds fd) = none := by
    intro fd
    split
    · rfl
    · next hnotin =>
      have hiff := open_iff_of_exited h hacceptor hworkers fd
      rw [← AList.mem_keys, ← hiff] at hnotin
      simpa using hnotin
  refine ⟨?_, ?_, ?_, ?_, ?_, ?_, ?_, ?_, h.idle, h.fault⟩
  · rintro i j fd (hi | hi) hj
    · exact absurd hi (Bool.eq_false_iff.mp (hnone i fd))
    · change fd ∈ (s.workers i).touches at hi
      rw [hnothing i] at hi
      cases hi
  · intro i fd hint
    exact absurd hint (Bool.eq_false_iff.mp (hnone i fd))
  · intro i
    refine ⟨(h.workers i).nodup, ?_, ?_, fun fd _ ↦ hnone i fd⟩
    · intro fd hfd
      have htouch := WorkerLoopPc.mem_touches_of_listed hfd
      rw [hnothing i] at htouch
      cases htouch
    · intro fd hfd
      have htouch := WorkerLoopPc.mem_touches_of_closes hfd
      rw [hnothing i] at htouch
      cases htouch
  · intro fd hfd
    rw [hacceptor] at hfd
    cases hfd
  · intro fd hfd
    rw [hacceptor] at hfd
    cases hfd
  · intro fd hfd
    exact absurd hfd (AList.notMem_empty fd)
  · intro fd hsome
    change (if fd ∈ s.connections.keys then none else s.openFds fd).isSome at hsome
    rw [hclosed fd] at hsome
    cases hsome
  · intro hadmits
    rw [Admitting, hacceptor] at hadmits
    exact absurd hadmits id

/-- Every step leaves every descriptor in one thread's care, if `stop` waits for the accept
thread. -/
theorem Sound.step {l : EpollServerLabel} (h : s.Sound numWorkers)
    (hg : s.StopsBetweenConnections l) (ht : s.step numWorkers l = some t) :
    t.Sound numWorkers := by
  cases l with
  | accept fd =>
    rw [EpollServer.step] at ht
    split at ht <;> cases ht
    next hok => exact sound_accept h hok.2.1 hok.1 hok.2.2
  | acceptor ok => exact sound_stepAcceptor h ht
  | epollWait i events =>
    rw [EpollServer.step] at ht
    split at ht <;> cases ht
    next hok =>
    obtain ⟨hi, hpc, hnodup, hall⟩ := hok
    refine h.setWorker hi (by rw [hpc]; rfl) ⟨rfl, rfl⟩ hnodup fun fd hfd ↦ ?_
    obtain ⟨event, hevent, rfl⟩ := List.mem_map.mp hfd
    exact .inl (hall event hevent)
  | epollError i =>
    rw [EpollServer.step] at ht
    split at ht <;> cases ht
    next hok =>
    exact h.setWorker hok.1 (by rw [hok.2]; rfl) ⟨rfl, rfl⟩ List.nodup_nil
      fun fd hfd ↦ absurd hfd List.not_mem_nil
  | recv i result =>
    rw [EpollServer.step] at ht
    split at ht
    · next hi => exact sound_stepRecv h hi ht
    · cases ht
  | worker i =>
    rw [EpollServer.step] at ht
    split at ht
    · next hi => exact sound_stepWorker h hi ht
    · cases ht
  | stop =>
    cases ht
    exact h.congr rfl rfl rfl (fun _ ↦ Iff.rfl) rfl rfl rfl
  | closeEpoll =>
    rw [EpollServer.step] at ht
    split at ht <;> cases ht
    exact sound_closeEpoll h hg
  | closeAll =>
    rw [EpollServer.step] at ht
    split at ht <;> cases ht
    next hok => exact sound_closeAll h hok.1 hok.2

end EpollServer
end EventStreamCore.Ingest.EpollIngestServer
