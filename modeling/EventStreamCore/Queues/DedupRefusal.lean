import EventStreamCore.Queues.DedupSteps

/-!
# The answer `false` of the deduplication table

`insert` answers `false` for an id it finds on the chain, `dedup.cpp:22–29`, and also after a
third compare-exchange that failed, `dedup.cpp:52–56`, although an entry with any other id of
the bucket makes a compare-exchange fail. While no call gives up, and nothing is cleaned up,
`false` means that the id is in the table.
-/

namespace EventStreamCore.Queues.DedupThreads
open EventStreamCore.Lib

universe u

variable {τ : Type u} {n : Nat}

/-- A step of a thread that inserts. -/
def Label.isInsert : Label τ → Bool
  | .callInsert _ => true
  | .inserter _ => true
  | .callCleanup _ => false
  | .cleaner => false

/-- The third compare-exchange of an insert, which is about to fail. -/
def State.givesUp [NeZero n] (entry : Nat → Entry) (s : State τ n) : Label τ → Bool
  | .inserter t =>
    match s.inserters t with
    | .casHead node retryCount head =>
      maxRetries ≤ retryCount + 1 &&
        s.heads (LockFreeDeduplicator.bucketIdx (entry node).id) != head
    | _ => false
  | _ => false

/-- A step of an insert that does not give up. -/
def State.Patient [NeZero n] (entry : Nat → Entry) (s : State τ n) (l : Label τ) : Prop :=
  l.isInsert = true ∧ s.givesUp entry l = false

instance [NeZero n] (entry : Nat → Entry) (s : State τ n) (l : Label τ) :
    Decidable (s.Patient entry l) := inferInstanceAs (Decidable (_ ∧ _))

/-- An entry with the id is on the chain of its bucket. -/
def State.Contains [NeZero n] (entry : Nat → Entry) (s : State τ n) (id : UInt32) : Prop :=
  ∃ chain, Linked s.next (s.heads (LockFreeDeduplicator.bucketIdx id)) chain ∧
    ∃ a ∈ chain, (entry a).id = id

/-- What an access of `insert` can do: go on with its entry, put it into the table, or refuse it,
because it stands at an entry with the same id or because it gives up. -/
inductive InsertStep [DecidableEq τ] [NeZero n] (entry : Nat → Entry) (s t : State τ n) (u : τ)
    (node : Nat) : Prop where
  | goesOn (pc : InsertPc) (owns : pc.owns node)
      (inserters : t.inserters = Function.update s.inserters u pc)
      (history : t.history = s.history)
  | inserts (inserters : t.inserters = Function.update s.inserters u .idle)
      (history : t.history = s.history ++ [.inserted node])
  | refuses (inserters : t.inserters = Function.update s.inserters u .idle)
      (history : t.history = s.history ++ [.refused node])
      (why : (∃ retryCount head curr, s.inserters u = .walk node retryCount head curr ∧
        (entry curr).id = (entry node).id) ∨ s.givesUp entry (.inserter u))

section Steps

variable [DecidableEq τ] [NeZero n] {entry : Nat → Entry} {s t : State τ n} {u : τ}

/-- Each access of `insert` is one of these. -/
theorem stepInsert_cases (hs : s.stepInsert entry u = some t) :
    t.fresh = s.fresh ∧ t.cleaner = s.cleaner ∧
      ∃ node, (s.inserters u).owns node ∧ InsertStep entry s t u node := by
  unfold State.stepInsert at hs
  cases hu : s.inserters u with
  | idle =>
    rw [hu] at hs
    cases hs
  | loadHead node retryCount =>
    simp only [hu, Option.some.injEq] at hs
    subst hs
    exact ⟨rfl, rfl, node, rfl, .goesOn _ (InsertPc.owns_walkTo.mpr rfl) rfl rfl⟩
  | walk node retryCount head curr =>
    simp only [hu] at hs
    split at hs
    · next hid =>
      cases hs
      exact ⟨rfl, rfl, node, rfl, .refuses rfl rfl (.inl ⟨_, _, _, hu, hid⟩)⟩
    · cases hs
      exact ⟨rfl, rfl, node, rfl, .goesOn _ (InsertPc.owns_walkTo.mpr rfl) rfl rfl⟩
  | writeNext node retryCount head =>
    simp only [hu, Option.some.injEq] at hs
    subst hs
    exact ⟨rfl, rfl, node, rfl, .goesOn (.casHead node retryCount head) rfl rfl rfl⟩
  | casHead node retryCount head =>
    simp only [hu] at hs
    split at hs
    · cases hs
      exact ⟨rfl, rfl, node, rfl, .inserts rfl rfl⟩
    · next hhead =>
      split at hs
      · cases hs
        exact ⟨rfl, rfl, node, rfl, .goesOn (.loadHead node (retryCount + 1)) rfl rfl rfl⟩
      · next hlast =>
        cases hs
        refine ⟨rfl, rfl, node, rfl, .refuses rfl rfl (.inr ?_)⟩
        simp only [State.givesUp, hu, Bool.and_eq_true, decide_eq_true_eq, bne_iff_ne]
        exact ⟨Nat.le_of_not_lt hlast, hhead⟩

end Steps

/-- Without a cleanup, and while no call gives up: nothing has been removed, a refused entry has
the id of another one that has been inserted, and every call is under way or has been answered. -/
structure State.Answers (entry : Nat → Entry) (s : State τ n) : Prop where
  cleaner : s.cleaner = .idle
  kept : ∀ a nowMs, .removed a nowMs ∉ s.history
  refused : ∀ v, .refused v ∈ s.history → v < s.fresh ∧
    ∃ a, s.Published a ∧ a ≠ v ∧ (entry a).id = (entry v).id
  answered : ∀ v < s.fresh, (∃ t, (s.inserters t).owns v) ∨ s.Published v ∨
    .refused v ∈ s.history

/-- An insert has one entry. -/
theorem InsertPc.owns_unique {pc : InsertPc} {a b : Nat} (ha : pc.owns a) (hb : pc.owns b) :
    a = b := by
  cases pc with
  | idle => cases ha
  | loadHead node retryCount => exact ha.symm.trans hb
  | walk node retryCount head curr => exact ha.symm.trans hb
  | writeNext node retryCount head => exact ha.symm.trans hb
  | casHead node retryCount head => exact ha.symm.trans hb

namespace State.Answers

variable {entry : Nat → Entry} {s t : State τ n} {u : τ} {node : Nat}

/-- The events a step adds settle the calls it ends. -/
private theorem of_history (h : s.Answers entry) {events : List DedupEvent}
    (hfresh : t.fresh = s.fresh) (hcleaner : t.cleaner = s.cleaner)
    (hhistory : t.history = s.history ++ events) (hkept : ∀ a nowMs, .removed a nowMs ∉ events)
    (hrefused : ∀ v, .refused v ∈ events → v < s.fresh ∧
      ∃ a, s.Published a ∧ a ≠ v ∧ (entry a).id = (entry v).id)
    (hanswered : ∀ w v, (s.inserters w).owns v → (∃ w, (t.inserters w).owns v) ∨
      .inserted v ∈ events ∨ .refused v ∈ events) : t.Answers entry where
  cleaner := hcleaner.trans h.cleaner
  kept a nowMs := by
    rw [hhistory, List.mem_append, not_or]
    exact ⟨h.kept a nowMs, hkept a nowMs⟩
  refused v hv := by
    rw [hhistory, List.mem_append] at hv
    obtain ⟨hlt, a, ha, hne⟩ := hv.elim (h.refused v) (hrefused v)
    refine ⟨hfresh ▸ hlt, a, ?_, hne⟩
    rw [State.Published, hhistory]
    exact List.mem_append_left _ ha
  answered v hv := by
    rw [State.Published, hhistory, List.mem_append, List.mem_append]
    obtain ⟨w, hw⟩ | hp | hr := h.answered v (hfresh ▸ hv)
    · obtain hw | hi | hr := hanswered w v hw
      · exact .inl hw
      · exact .inr (.inl (.inr hi))
      · exact .inr (.inr (.inr hr))
    · exact .inr (.inl (.inl hp))
    · exact .inr (.inr (.inl hr))

/-- An entry an insert stands at has been put into the table, so it is not the insert's own. -/
private theorem published_of_walk [NeZero n] {chain : Fin n → List Nat} {retryCount curr : Nat}
    {head : Option Nat} (hinv : s.Inv entry chain)
    (hu : s.inserters u = .walk node retryCount head curr) :
    s.Published curr ∧ curr ≠ node := by
  have hat := hinv.inserters u
  rw [hu] at hat
  obtain ⟨hhidden, ahead, hcovers⟩ := hat
  have hcurr := hcovers.published curr hcovers.linked.head_mem
  refine ⟨hcurr, ?_⟩
  rintro rfl
  exact hhidden.2 hcurr

variable [DecidableEq τ]

private theorem callInsert (h : s.Answers entry) (hu : s.inserters u = .idle) :
    State.Answers entry { s.setInserter u (.loadHead s.fresh 0) with
      next := Function.update s.next s.fresh none
      fresh := s.fresh + 1 } where
  cleaner := h.cleaner
  kept := h.kept
  refused v hv := ⟨(h.refused v hv).1.trans (Nat.lt_succ_self _), (h.refused v hv).2⟩
  answered v hv := by
    obtain hv | rfl := Nat.lt_succ_iff_lt_or_eq.mp hv
    · obtain ⟨w, hw⟩ | hdone := h.answered v hv
      · refine .inl ⟨w, ?_⟩
        have hwu : w ≠ u := by
          rintro rfl
          rw [hu] at hw
          cases hw
        simpa only [State.setInserter, Function.update_of_ne hwu] using hw
      · exact .inr hdone
    · refine .inl ⟨u, ?_⟩
      simp only [State.setInserter, Function.update_self]
      rfl

/-- The calls of the other threads stay under way. -/
private theorem owner_of_ne (hnode : (s.inserters u).owns node) {pc : InsertPc}
    (hpcs : t.inserters = Function.update s.inserters u pc) {w : τ} {v : Nat}
    (hw : (s.inserters w).owns v) (hv : v ≠ node) : (t.inserters w).owns v := by
  have hwu : w ≠ u := by
    rintro rfl
    exact hv (InsertPc.owns_unique hw hnode)
  rw [hpcs, Function.update_of_ne hwu]
  exact hw

private theorem stepInsert [NeZero n] {chain : Fin n → List Nat} (h : s.Answers entry)
    (hinv : s.Inv entry chain) (hstays : ¬ s.givesUp entry (.inserter u))
    (hs : s.stepInsert entry u = some t) : t.Answers entry := by
  obtain ⟨hfresh, hcleaner, node, hnode, hcase⟩ := stepInsert_cases hs
  have hhidden := (hinv.inserters u).hidden hnode
  cases hcase with
  | goesOn pc howns hpcs hhistory =>
    apply h.of_history hfresh hcleaner (hhistory.trans (List.append_nil _).symm)
      (fun _ _ ↦ List.not_mem_nil) nofun
    intro w v hw
    left
    by_cases hv : v = node
    · refine ⟨u, ?_⟩
      rw [hpcs, Function.update_self, hv]
      exact howns
    · exact ⟨w, owner_of_ne hnode hpcs hw hv⟩
  | inserts hpcs hhistory =>
    apply h.of_history hfresh hcleaner hhistory
    · intro a nowMs hmem
      cases List.mem_singleton.mp hmem
    · intro v hmem
      cases List.mem_singleton.mp hmem
    · intro w v hw
      by_cases hv : v = node
      · rw [hv]
        exact .inr (.inl List.mem_cons_self)
      · exact .inl ⟨w, owner_of_ne hnode hpcs hw hv⟩
  | refuses hpcs hhistory why =>
    obtain ⟨retryCount, head, curr, hu, hid⟩ := why.resolve_right hstays
    obtain ⟨hcurr, hne⟩ := published_of_walk hinv hu
    apply h.of_history hfresh hcleaner hhistory
    · intro a nowMs hmem
      cases List.mem_singleton.mp hmem
    · intro v hmem
      cases List.mem_singleton.mp hmem
      exact ⟨hhidden.1, curr, hcurr, hne, hid⟩
    · intro w v hw
      by_cases hv : v = node
      · rw [hv]
        exact .inr (.inr List.mem_cons_self)
      · exact .inl ⟨w, owner_of_ne hnode hpcs hw hv⟩

/-- A step of an insert that does not give up keeps the answers right. -/
theorem step [NeZero n] {chain : Fin n → List Nat} {l : Label τ} (h : s.Answers entry)
    (hinv : s.Inv entry chain) (hinsert : l.isInsert) (hstays : ¬ s.givesUp entry l)
    (hs : s.step entry l = some t) : t.Answers entry := by
  cases l with
  | callInsert u =>
    simp only [State.step] at hs
    split at hs
    · next hu =>
      cases hs
      exact h.callInsert hu
    · cases hs
  | inserter u => exact h.stepInsert hinv hstays hs
  | callCleanup nowMs => cases hinsert
  | cleaner => cases hinsert

end State.Answers

section Returns

variable [DecidableEq τ] [NeZero n] {entry : Nat → Entry} {s t : State τ n} {u : τ}
  {chain : Fin n → List Nat} {node retryCount : Nat} {head : Option Nat}

/-- Left to itself, a thread comes back from `insert`. -/
def State.Returns (entry : Nat → Entry) (s : State τ n) (u : τ) : Prop :=
  ∃ k t, (dedupThreads τ n entry).run s (List.replicate k (.inserter u)) = some t ∧
    t.inserters u = .idle

private theorem returns_of_idle (hu : s.inserters u = .idle) : s.Returns entry u :=
  ⟨0, s, rfl, hu⟩

private theorem returns_of_step (hs : s.stepInsert entry u = some t) (ht : t.Returns entry u) :
    s.Returns entry u := by
  obtain ⟨k, r, hr, hidle⟩ := ht
  have hstep : (dedupThreads τ n entry).step s (.inserter u) = some t := hs
  refine ⟨k + 1, r, ?_, hidle⟩
  rw [List.replicate_succ, Machine.run_cons_of_step hstep]
  exact hr

/-- A running insert is never blocked. -/
theorem stepInsert_enabled (entry : Nat → Entry) (hu : s.inserters u ≠ .idle) :
    ∃ t, s.stepInsert entry u = some t := by
  unfold State.stepInsert
  cases hpc : s.inserters u with
  | idle => exact absurd hpc hu
  | loadHead node retryCount => exact ⟨_, rfl⟩
  | walk node retryCount head curr => exact ⟨_, (apply_ite some _ _ _).symm⟩
  | writeNext node retryCount head => exact ⟨_, rfl⟩
  | casHead node retryCount head =>
    simp only [← apply_ite some]
    exact ⟨_, rfl⟩

section Retry

-- what the next attempt does, if there is one
variable (hretry : ∀ (t : State τ n) chain, t.Inv entry chain → retryCount + 1 < maxRetries →
  t.inserters u = .loadHead node (retryCount + 1) → t.Returns entry u)

include hretry

private theorem returns_of_casHead (h : s.Inv entry chain)
    (hu : s.inserters u = .casHead node retryCount head) : s.Returns entry u := by
  obtain ⟨t, hs⟩ := stepInsert_enabled entry (by rw [hu]; exact nofun)
  apply returns_of_step hs
  obtain ⟨chain', hinv⟩ := h.stepInsert hs
  simp only [State.stepInsert, hu] at hs
  split at hs
  · cases hs
    exact returns_of_idle (Function.update_self _ _ _)
  · split at hs
    · next hless =>
      cases hs
      exact hretry _ chain' hinv hless (Function.update_self _ _ _)
    · cases hs
      exact returns_of_idle (Function.update_self _ _ _)

private theorem returns_of_writeNext (h : s.Inv entry chain)
    (hu : s.inserters u = .writeNext node retryCount head) : s.Returns entry u := by
  obtain ⟨t, hs⟩ := stepInsert_enabled entry (by rw [hu]; exact nofun)
  apply returns_of_step hs
  obtain ⟨chain', hinv⟩ := h.stepInsert hs
  simp only [State.stepInsert, hu, Option.some.injEq] at hs
  subst hs
  exact returns_of_casHead hretry hinv (Function.update_self _ _ _)

private theorem returns_of_walk {curr : Nat} {ahead : List Nat} (h : s.Inv entry chain)
    (hlinked : Linked s.next (some curr) ahead)
    (hu : s.inserters u = .walk node retryCount head curr) : s.Returns entry u := by
  -- along what is ahead, which no step of this thread changes
  induction ahead generalizing s chain curr with
  | nil => cases hlinked
  | cons a ahead ih =>
    obtain ⟨t, hs⟩ := stepInsert_enabled entry (s := s) (by rw [hu]; exact nofun)
    apply returns_of_step hs
    obtain ⟨chain', hinv⟩ := h.stepInsert hs
    simp only [State.stepInsert, hu] at hs
    split at hs
    · cases hs
      exact returns_of_idle (Function.update_self _ _ _)
    · cases hs
      cases hlinked.1
      have hpc := Function.update_self u (InsertPc.walkTo node retryCount head (s.next a))
        s.inserters
      have hrest := hlinked.2
      cases hnext : s.next a with
      | none =>
        rw [hnext] at hpc hinv
        exact returns_of_writeNext hretry hinv hpc
      | some b =>
        rw [hnext] at hpc hinv hrest
        exact ih hinv hrest hpc

private theorem returns_of_loadHead (h : s.Inv entry chain)
    (hu : s.inserters u = .loadHead node retryCount) : s.Returns entry u := by
  obtain ⟨t, hs⟩ := stepInsert_enabled entry (s := s) (by rw [hu]; exact nofun)
  apply returns_of_step hs
  obtain ⟨chain', hinv⟩ := h.stepInsert hs
  simp only [State.stepInsert, hu, Option.some.injEq] at hs
  subst hs
  have hlinked := h.linked (LockFreeDeduplicator.bucketIdx (entry node).id)
  have hpc := Function.update_self u (InsertPc.walkTo node retryCount
    (s.heads (LockFreeDeduplicator.bucketIdx (entry node).id))
    (s.heads (LockFreeDeduplicator.bucketIdx (entry node).id))) s.inserters
  cases hhead : s.heads (LockFreeDeduplicator.bucketIdx (entry node).id) with
  | none =>
    rw [hhead] at hpc hinv
    exact returns_of_writeNext hretry hinv hpc
  | some a =>
    rw [hhead] at hpc hinv hlinked
    exact returns_of_walk hretry hinv hlinked hpc

end Retry

private theorem returns_of_attempts (k : Nat) (h : s.Inv entry chain)
    (hk : maxRetries ≤ retryCount + k) (hu : s.inserters u = .loadHead node retryCount) :
    s.Returns entry u := by
  induction k generalizing s chain retryCount with
  | zero =>
    refine returns_of_loadHead (fun _ _ _ hless _ ↦ ?_) h hu
    omega
  | succ k ih =>
    refine returns_of_loadHead (fun t chain' ht _ hload ↦ ih ht ?_ hload) h hu
    omega

/-- From every state the invariant allows, a thread left to itself comes back: the chains it
walks are finite, and it tries three times at most. -/
theorem State.Inv.returns (h : s.Inv entry chain) (u : τ) : s.Returns entry u := by
  have hretry : ∀ retryCount node (t : State τ n) chain, t.Inv entry chain →
      retryCount + 1 < maxRetries → t.inserters u = .loadHead node (retryCount + 1) →
      t.Returns entry u := fun _ _ _ _ ht _ hload ↦
    returns_of_attempts maxRetries ht (Nat.le_add_left _ _) hload
  have hat := h.inserters u
  cases hu : s.inserters u with
  | idle => exact returns_of_idle hu
  | loadHead node retryCount => exact returns_of_loadHead (hretry retryCount node) h hu
  | walk node retryCount head curr =>
    rw [hu] at hat
    obtain ⟨-, ahead, hcovers⟩ := hat
    exact returns_of_walk (hretry retryCount node) h hcovers.linked hu
  | writeNext node retryCount head => exact returns_of_writeNext (hretry retryCount node) h hu
  | casHead node retryCount head => exact returns_of_casHead (hretry retryCount node) h hu

end Returns

section Runs

variable [NeZero n] {entry : Nat → Entry} {s : State τ n}

/-- Without a cleanup, what has been inserted is found. -/
theorem State.Answers.contains {chain : Fin n → List Nat} (h : s.Answers entry)
    (hinv : s.Inv entry chain) {a : Nat} (ha : s.Published a) : s.Contains entry (entry a).id := by
  obtain hmem | ⟨nowMs, hremoved⟩ := hinv.kept a ha
  · exact ⟨_, hinv.linked _, a, hmem, rfl⟩
  · have hin := hremoved.subset (List.mem_cons_of_mem _ List.mem_cons_self)
    exact absurd hin (h.kept a nowMs)

variable [DecidableEq τ]

/-- Both invariants hold in every run in which no insert gives up. -/
theorem answers_of_patient (h : (dedupThreads τ n entry).ReachableWith (State.Patient entry) s) :
    ∃ chain, s.Inv entry chain ∧ s.Answers entry := by
  apply h.invariant (I := fun s ↦ ∃ chain, s.Inv entry chain ∧ s.Answers entry)
  · refine ⟨_, State.Inv.initial, rfl, fun _ _ ↦ List.not_mem_nil, nofun, ?_⟩
    intro v hv
    exact absurd hv (Nat.not_lt_zero v)
  · rintro s l t ⟨chain, hinv, hanswers⟩ ⟨hinsert, hstays⟩ ht
    obtain ⟨chain', hinv'⟩ := hinv.step ht
    exact ⟨chain', hinv', hanswers.step hinv hinsert (by rw [hstays]; exact nofun) ht⟩

/-- In every interleaving of inserts in which no third compare-exchange fails, the id of an
insert that answers `false` is in the table; when no two calls have the same id, none answers
`false` and every id is found once its call is over; and a thread left to itself comes back. -/
theorem refused_only_when_present (entry : Nat → Entry) (s : State τ n)
    (h : (dedupThreads τ n entry).ReachableWith (State.Patient entry) s) :
    (∀ v, .refused v ∈ s.history → s.Contains entry (entry v).id) ∧
    ((∀ a < s.fresh, ∀ b < s.fresh, (entry a).id = (entry b).id → a = b) →
      (∀ v, .refused v ∉ s.history) ∧ ∀ v < s.fresh, (∀ t, ¬ (s.inserters t).owns v) →
        .inserted v ∈ s.history ∧ s.Contains entry (entry v).id) ∧
    ∀ t, s.Returns entry t := by
  obtain ⟨chain, hinv, hanswers⟩ := answers_of_patient h
  refine ⟨fun v hv ↦ ?_, fun hdistinct ↦ ?_, hinv.returns⟩
  · obtain ⟨-, a, ha, -, hid⟩ := hanswers.refused v hv
    exact hid ▸ hanswers.contains hinv ha
  · have hnever : ∀ v, .refused v ∉ s.history := by
      intro v hv
      obtain ⟨hlt, a, ha, hne, hid⟩ := hanswers.refused v hv
      exact hne (hdistinct a (hinv.fresh a ha) v hlt hid)
    refine ⟨hnever, fun v hv hover ↦ ?_⟩
    obtain ⟨t, ht⟩ | hp | hr := hanswers.answered v hv
    · exact absurd ht (hover t)
    · exact ⟨hp, hanswers.contains hinv hp⟩
    · exact absurd hr (hnever v)

/-- The first thread loses its first compare-exchange to another id and wins its second; a
third thread then finds the id. -/
theorem refused_only_when_present_after_retry :
    let entry : Nat → Entry := fun k ↦ if k = 1 then ⟨4096, 0⟩ else ⟨0, 0⟩
    ∃ s : State (Fin 3) defaultBuckets,
      (dedupThreads (Fin 3) defaultBuckets entry).ReachableWith (State.Patient entry) s ∧
      s.history = [.inserted 1, .inserted 0, .refused 2] ∧ s.Contains entry (entry 2).id := by
  intro entry
  let m := dedupThreads (Fin 3) defaultBuckets entry
  have hrun : (m.runWith (State.Patient entry) m.start (List.flatten
      [[.callInsert 0, .callInsert 1], List.replicate 2 (.inserter 0),
        List.replicate 3 (.inserter 1), List.replicate 5 (.inserter 0), [.callInsert 2],
        List.replicate 2 (.inserter 2)])).map
      State.history = some [.inserted 1, .inserted 0, .refused 2] := by
    decide +kernel
  obtain ⟨s, hrun, hs⟩ := Option.map_eq_some_iff.mp hrun
  have hreach := Machine.ReachableWith.run .start hrun
  refine ⟨s, hreach, hs, (refused_only_when_present entry s hreach).1 2 ?_⟩
  rw [hs]
  decide

/-- Three ids of one bucket make the compare-exchanges of a fourth fail three times: `insert`
answers `false`, and the id is not in the table. -/
theorem refused_and_absent :
    let entry : Nat → Entry := fun k ↦ ⟨UInt32.ofNat (4096 * k), 0⟩
    ∃ s : State (Fin 4) defaultBuckets,
      (dedupThreads (Fin 4) defaultBuckets entry).ReachableWith (fun _ l ↦ l.isInsert) s ∧
      s.history = [.inserted 0, .inserted 1, .inserted 2, .refused 3] ∧
      ¬ s.Contains entry (entry 3).id := by
  intro entry
  let m := dedupThreads (Fin 4) defaultBuckets entry
  have hrun : (m.runWith (fun _ l ↦ l.isInsert) m.start (List.flatten
      [[.callInsert 0, .callInsert 1, .callInsert 2, .callInsert 3],
        List.replicate 2 (.inserter 3), List.replicate 3 (.inserter 0),
        List.replicate 4 (.inserter 3), List.replicate 4 (.inserter 1),
        List.replicate 5 (.inserter 3), List.replicate 5 (.inserter 2), [.inserter 3]])).map
      (fun s ↦ (s.history, s.heads 0, s.next 2, s.next 1, s.next 0)) =
      some ([.inserted 0, .inserted 1, .inserted 2, .refused 3], some 2, some 1, some 0, none) := by
    decide +kernel
  obtain ⟨s, hrun, hs⟩ := Option.map_eq_some_iff.mp hrun
  simp only [Prod.mk.injEq] at hs
  obtain ⟨hhistory, hhead, hnext₂, hnext₁, hnext₀⟩ := hs
  have hreach : m.ReachableWith (fun _ l ↦ l.isInsert) s := Machine.ReachableWith.run .start hrun
  refine ⟨s, hreach, hhistory, ?_⟩
  rintro ⟨chain, hlinked, a, ha, hid⟩
  have hbucket : LockFreeDeduplicator.bucketIdx (n := defaultBuckets) (entry 3).id = 0 := by
    decide
  have hchain : Linked s.next (s.heads 0) [2, 1, 0] := ⟨hhead, hnext₂, hnext₁, hnext₀⟩
  rw [hbucket] at hlinked
  rw [hlinked.unique hchain] at ha
  have hids : ∀ a ∈ [2, 1, 0], (entry a).id ≠ (entry 3).id := by decide
  exact hids a ha hid

end Runs

end EventStreamCore.Queues.DedupThreads
