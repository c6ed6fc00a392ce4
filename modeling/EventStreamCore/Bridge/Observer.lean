import Mathlib.Data.Fintype.Basic
import EventStreamCore.Processor.Output

/-!
# Callbacks that unsubscribe

`EscObserver`, `src/bridge/esccore.cpp:31–66`, on the observer list between any number of processor
threads: the test of `active` in `isActive` before the call, the second one inside
`onEventProcessed`, the call of the C callback and the store of `false` are steps of their own. The
callback is reached through the lambda of `esccore_subscribe`, `esccore.cpp:204–219`, which filters
by topic.
-/

namespace EventStreamCore.Bridge
open EventStreamCore.Events EventStreamCore.Lib EventStreamCore.Processor

universe u v

/-- Where a thread stands in an `EscObserver`: before the load of `active`, before the call of
`onProcessed` or `onDropped`, or before the store. -/
inductive EscPc where
  | load | call | store
deriving DecidableEq, Repr

/-- Does the filter of `esccore_subscribe` let a topic through? `esccore.cpp:207–210`. -/
def passes (topicPrefix topic : Bytes) : Bool :=
  topicPrefix.isEmpty || topic.take topicPrefix.length == topicPrefix

/-- Does a callback ask to be unsubscribed? It returns a code, or it throws. -/
def unsubscribes : Option Int32 → Bool
  | some rc => rc != 0
  | none => false

/-- The observer list with its threads, where each thread stands in the observer it is in, and the
invocations of callbacks so far with what they returned. -/
structure Observing (ι : Type v) (ω : Type u) where
  stream : ProcessedEventStream ι ω
  pcs : ι → EscPc
  invocations : List (ω × Option Int32)

/-- What a step is: one of the observer list outside an observer, or one inside, with what the
callback returns if it is called. -/
inductive ObservingLabel (ι : Type v) (ω : Type u) where
  | subscribe (observer : Option ω)
  | clear
  | setEnabled (enabled : Bool)
  | notify (i : ι) (notification : Notification)
  | thread (i : ι)
  | observer (i : ι) (rc : Option Int32)

section Machine

variable {ι : Type v} {ω : Type u} [DecidableEq ι] [DecidableEq ω]

/-- Does a notification make an observer invoke its callback? `topicPrefix` has the filters of the
observers that are `EscObserver`s. -/
def invokes (topicPrefix : ω → Option Bytes) (obs : ω) : Notification → Bool
  | .processed event _ => (topicPrefix obs).any fun p ↦ passes p event.topic
  | .dropped _ _ _ => false

namespace Observing

/-- Move a thread inside the observer it is in. -/
def setPc (s : Observing ι ω) (i : ι) (pc : EscPc) : Observing ι ω :=
  { s with pcs := Function.update s.pcs i pc }

omit [DecidableEq ω] in
/-- The thread that moved. -/
theorem setPc_self (s : Observing ι ω) (i : ι) (pc : EscPc) : (s.setPc i pc).pcs i = pc :=
  Function.update_self _ _ _

omit [DecidableEq ω] in
/-- The other threads stay where they are. -/
theorem setPc_of_ne (s : Observing ι ω) {i j : ι} (h : j ≠ i) (pc : EscPc) :
    (s.setPc i pc).pcs j = s.pcs j := Function.update_of_ne h _ _

/-- A step of the observer list. -/
def onStream (s : Observing ι ω) (l : StreamLabel ι ω) : Option (Observing ι ω) :=
  (s.stream.step l).map fun stream ↦ { s with stream }

/-- Return from the observer. -/
def leave (s : Observing ι ω) (i : ι) (outcome : Outcome) : Option (Observing ι ω) :=
  (s.stream.step (.thread i outcome)).map fun stream ↦
    ({ s with stream } : Observing ι ω).setPc i .load

/-- One step inside an observer, `esccore.cpp:42–59`. An observer of another class does what it does
and returns or throws. -/
def stepObserver (topicPrefix : ω → Option Bytes) (s : Observing ι ω) (i : ι) (obs : ω)
    (notification : Notification) (rc : Option Int32) : Option (Observing ι ω) :=
  if (topicPrefix obs).isNone then s.leave i (if rc.isSome then .returned else .threw)
  else match s.pcs i with
  | .load =>
    if s.stream.active obs then some (s.setPc i .call)
    else s.leave i .returned
  | .call =>
    if invokes topicPrefix obs notification then
      let s := { s with invocations := s.invocations ++ [(obs, rc)] }
      if unsubscribes rc then some (s.setPc i .store)
      else s.leave i (if rc.isSome then .returned else .threw)
    else s.leave i .returned
  | .store => (s.onStream (.deactivate obs)).bind fun s ↦ s.leave i .returned

/-- One step. -/
def step (topicPrefix : ω → Option Bytes) (s : Observing ι ω) :
    ObservingLabel ι ω → Option (Observing ι ω)
  | .subscribe observer => s.onStream (.subscribe observer)
  | .clear => s.onStream .clear
  | .setEnabled enabled => s.onStream (.setEnabled enabled)
  | .notify i notification => s.onStream (.notify i notification)
  | .thread i =>
    match s.stream.threads i with
    | .inObserver _ _ _ _ => none
    | _ => s.onStream (.thread i .returned)
  | .observer i rc =>
    match s.stream.threads i with
    | .inObserver call obs _ _ => s.stepObserver topicPrefix i obs call.notification rc
    | _ => none

/-- The observer in which a thread stands at `pc` on its way to or from the callback. -/
def subscriberAt (topicPrefix : ω → Option Bytes) (s : Observing ι ω) (pc : EscPc) (i : ι) :
    Option ω :=
  match s.stream.threads i with
  | .inObserver call obs _ _ =>
    if s.pcs i = pc ∧ invokes topicPrefix obs call.notification then some obs else none
  | _ => none

/-- No thread loads `active` while another one that was asked to unsubscribe has not stored it, and
no callback asks to unsubscribe while another thread is past that load. -/
def Exclusive (topicPrefix : ω → Option Bytes) (s : Observing ι ω) : ObservingLabel ι ω → Prop
  | .observer i rc =>
    (∀ obs ∈ s.subscriberAt topicPrefix .load i, ∀ j,
      s.subscriberAt topicPrefix .store j ≠ some obs) ∧
    (∀ obs ∈ s.subscriberAt topicPrefix .call i, unsubscribes rc → ∀ j, j ≠ i →
      s.subscriberAt topicPrefix .call j ≠ some obs)
  | _ => True

instance [Fintype ι] (topicPrefix : ω → Option Bytes) (s : Observing ι ω) :
    (l : ObservingLabel ι ω) → Decidable (s.Exclusive topicPrefix l)
  | .subscribe _ => inferInstanceAs (Decidable True)
  | .clear => inferInstanceAs (Decidable True)
  | .setEnabled _ => inferInstanceAs (Decidable True)
  | .notify _ _ => inferInstanceAs (Decidable True)
  | .thread _ => inferInstanceAs (Decidable True)
  | .observer _ _ => inferInstanceAs (Decidable (_ ∧ _))

end Observing

/-- All runs of the processor threads `ι` with the observers `ω`. -/
def observing (ι : Type v) (ω : Type u) [DecidableEq ι] [DecidableEq ω]
    (topicPrefix : ω → Option Bytes) : Machine (Observing ι ω) (ObservingLabel ι ω) where
  start := ⟨(processedEventStream ι ω).start, fun _ ↦ .load, []⟩
  step := Observing.step topicPrefix

end Machine

/-! ### Nobody is invoked after asking out -/

namespace Observing

variable {ι : Type v} {ω : Type u} {topicPrefix : ω → Option Bytes} {s t : Observing ι ω} {i j : ι}
  {pc : EscPc} {obs : ω}

/-- An invocation of this callback asked to unsubscribe. -/
def Asked (s : Observing ι ω) (obs : ω) : Prop :=
  ∃ rc, (obs, rc) ∈ s.invocations ∧ unsubscribes rc

private theorem subscriberAt_congr (hthread : t.stream.threads j = s.stream.threads j)
    (hpc : t.pcs j = s.pcs j) :
    t.subscriberAt topicPrefix pc j = s.subscriberAt topicPrefix pc j := by
  rw [subscriberAt, subscriberAt, hthread, hpc]

private theorem subscriberAt_eq_none (h : s.pcs i ≠ pc) :
    s.subscriberAt topicPrefix pc i = none := by
  unfold subscriberAt
  split
  · rw [if_neg fun hp ↦ h hp.1]
  · rfl

/-- In front of the callback and behind it a thread is where its list entry says, a callback that
asked out has its flag cleared or a thread about to clear it, and none was invoked after that. -/
structure Inv (topicPrefix : ω → Option Bytes) (s : Observing ι ω) : Prop where
  outside : ∀ i, (∀ call obs rest needsPrune,
    s.stream.threads i ≠ .inObserver call obs rest needsPrune) → s.pcs i = .load
  unasked : ∀ i obs, s.subscriberAt topicPrefix .call i = some obs → ¬ s.Asked obs
  stored : ∀ obs, s.Asked obs → s.stream.active obs = false ∨
    ∃ i, s.subscriberAt topicPrefix .store i = some obs
  once : s.invocations.Pairwise fun a b ↦ a.1 = b.1 → ¬ unsubscribes a.2

/-- What a thread's step must leave when it asks for nothing and clears nothing. -/
private def Quiet (topicPrefix : ω → Option Bytes) (s t : Observing ι ω) (i : ι) : Prop :=
  s.subscriberAt topicPrefix .store i = none ∧
  ((∀ call obs rest needsPrune, t.stream.threads i ≠ .inObserver call obs rest needsPrune) →
    t.pcs i = .load) ∧
  ∀ obs, t.subscriberAt topicPrefix .call i = some obs → ¬ s.Asked obs

private theorem Inv.quiet (h : s.Inv topicPrefix)
    (hthreads : ∀ j, (t.stream.threads j = s.stream.threads j ∧ t.pcs j = s.pcs j) ∨
      Quiet topicPrefix s t j)
    (hactive : t.stream.active = s.stream.active) (hasked : ∀ obs, t.Asked obs ↔ s.Asked obs)
    (honce : t.invocations.Pairwise fun a b ↦ a.1 = b.1 → ¬ unsubscribes a.2) :
    t.Inv topicPrefix := by
  refine ⟨?_, ?_, ?_, honce⟩
  · intro j hj
    obtain ⟨hthread, hpc⟩ | ⟨-, houtside, -⟩ := hthreads j
    · rw [hpc]
      rw [hthread] at hj
      exact h.outside j hj
    · exact houtside hj
  · intro j obs hj
    rw [hasked]
    obtain ⟨hthread, hpc⟩ | ⟨-, -, hcall⟩ := hthreads j
    · rw [subscriberAt_congr hthread hpc] at hj
      exact h.unasked j obs hj
    · exact hcall obs hj
  · intro obs hobs
    rw [hactive]
    apply (h.stored obs ((hasked obs).mp hobs)).imp_right
    rintro ⟨k, hk⟩
    obtain ⟨hthread, hpc⟩ | ⟨hstore, -, -⟩ := hthreads k
    · exact ⟨k, (subscriberAt_congr hthread hpc).trans hk⟩
    · rw [hstore] at hk
      cases hk

variable [DecidableEq ι] [DecidableEq ω]

/-- A step of the observer list outside the observers. -/
private theorem Inv.onStream (h : s.Inv topicPrefix) {l : StreamLabel ι ω}
    (hs : s.onStream l = some t)
    (hthreads : ∀ stream, s.stream.step l = some stream → stream.active = s.stream.active ∧
      ∀ j, stream.threads j = s.stream.threads j ∨ s.pcs j = .load) : t.Inv topicPrefix := by
  obtain ⟨stream, hstep, rfl⟩ := Option.map_eq_some_iff.mp hs
  obtain ⟨hactive, hstay⟩ := hthreads stream hstep
  refine h.quiet ?_ hactive (fun _ ↦ Iff.rfl) h.once
  intro j
  apply (hstay j).imp
  · intro hthread
    exact ⟨hthread, rfl⟩
  · intro hload
    have hcall : s.pcs j ≠ .call := by
      rw [hload]
      exact nofun
    refine ⟨?_, fun _ ↦ hload, fun obs hobs ↦ ?_⟩
    · apply subscriberAt_eq_none
      rw [hload]
      exact nofun
    · rw [subscriberAt_eq_none (s := { s with stream }) hcall] at hobs
      cases hobs

/-- Where a return from an observer leaves the threads. -/
private theorem leave_spec {outcome : Outcome} (hs : s.leave i outcome = some t) :
    t.stream.active = s.stream.active ∧ t.invocations = s.invocations ∧
      (∀ j, j ≠ i → t.stream.threads j = s.stream.threads j ∧ t.pcs j = s.pcs j) ∧
      t.pcs i = .load := by
  obtain ⟨stream, hstep, rfl⟩ := Option.map_eq_some_iff.mp hs
  obtain ⟨hactive, hothers⟩ := ProcessedEventStream.stepThread_frame hstep
  exact ⟨hactive, rfl, fun j hj ↦ ⟨hothers j hj, setPc_of_ne _ hj _⟩, setPc_self _ _ _⟩

/-- A return from an observer in which nothing was stored. -/
private theorem Inv.leave (h : s.Inv topicPrefix) {outcome : Outcome}
    (hstore : s.subscriberAt topicPrefix .store i = none) (hs : s.leave i outcome = some t) :
    t.Inv topicPrefix := by
  obtain ⟨hactive, hinvocations, hothers, hload⟩ := leave_spec hs
  refine h.quiet ?_ hactive (fun obs ↦ ?_) ?_
  · intro j
    by_cases hj : j = i
    · subst hj
      refine .inr ⟨hstore, fun _ ↦ hload, fun obs hobs ↦ ?_⟩
      rw [subscriberAt_eq_none (by rw [hload]; exact nofun)] at hobs
      cases hobs
    · exact .inl (hothers j hj)
  · rw [Asked, Asked, hinvocations]
  · rw [hinvocations]
    exact h.once

omit [DecidableEq ω] in
/-- Passing the load of `active`. -/
private theorem Inv.passLoad (h : s.Inv topicPrefix) {call : NotifyCall ω} {rest : List ω}
    {needsPrune : Bool} (hin : s.stream.threads i = .inObserver call obs rest needsPrune)
    (hload : s.pcs i = .load) (hactive : s.stream.active obs = true)
    (hexclusive : ∀ obs ∈ s.subscriberAt topicPrefix .load i, ∀ j,
      s.subscriberAt topicPrefix .store j ≠ some obs) :
    (s.setPc i .call).Inv topicPrefix := by
  refine h.quiet ?_ rfl (fun _ ↦ Iff.rfl) h.once
  intro j
  by_cases hj : j = i
  · subst hj
    have hstore : s.subscriberAt topicPrefix .store j = none :=
      subscriberAt_eq_none (by rw [hload]; exact nofun)
    refine .inr ⟨hstore, fun hout ↦ absurd hin (hout _ _ _ _), ?_⟩
    intro o ho hasked
    have hstream : (s.setPc j .call).stream = s.stream := rfl
    simp only [subscriberAt, setPc_self, true_and, hstream, hin] at ho
    split at ho
    · next hinvokes =>
      cases ho
      have hat : s.subscriberAt topicPrefix .load j = some obs := by
        simp only [subscriberAt, hin, hload, hinvokes, and_self, if_true]
      obtain hcleared | ⟨k, hk⟩ := h.stored obs hasked
      · rw [hactive] at hcleared
        cases hcleared
      · exact hexclusive obs hat k hk
    · cases ho
  · exact .inl ⟨rfl, s.setPc_of_ne hj _⟩

omit [DecidableEq ι] [DecidableEq ω] in
private theorem asked_concat {rc : Option Int32} {o : ω} :
    ({ s with invocations := s.invocations ++ [(obs, rc)] } : Observing ι ω).Asked o ↔
      s.Asked o ∨ o = obs ∧ unsubscribes rc := by
  constructor
  · rintro ⟨code, hmem, hcode⟩
    rcases List.mem_append.mp hmem with hold | hnew
    · exact .inl ⟨code, hold, hcode⟩
    · cases List.mem_singleton.mp hnew
      exact .inr ⟨rfl, hcode⟩
  · rintro (⟨code, hmem, hcode⟩ | ⟨rfl, hcode⟩)
    · exact ⟨code, List.mem_append_left _ hmem, hcode⟩
    · exact ⟨rc, List.mem_append_right _ (List.mem_singleton_self _), hcode⟩

omit [DecidableEq ι] [DecidableEq ω] in
/-- A callback that is invoked has not asked out before. -/
private theorem Inv.once_concat (h : s.Inv topicPrefix) (rc : Option Int32)
    (hat : s.subscriberAt topicPrefix .call i = some obs) :
    (s.invocations ++ [(obs, rc)]).Pairwise fun a b ↦ a.1 = b.1 → ¬ unsubscribes a.2 := by
  rw [List.pairwise_append]
  refine ⟨h.once, List.pairwise_singleton _ _, ?_⟩
  rintro ⟨o, code⟩ ha b hb heq hcode
  cases List.mem_singleton.mp hb
  cases heq
  exact h.unasked i obs hat ⟨code, ha, hcode⟩

/-- A callback that asks to unsubscribe. -/
private theorem Inv.unsubscribe (h : s.Inv topicPrefix) {rc : Option Int32}
    {call : NotifyCall ω} {rest : List ω} {needsPrune : Bool}
    (hin : s.stream.threads i = .inObserver call obs rest needsPrune) (hpc : s.pcs i = .call)
    (hinvokes : invokes topicPrefix obs call.notification = true)
    (hexclusive : ∀ j, j ≠ i → s.subscriberAt topicPrefix .call j ≠ some obs) :
    (({ s with invocations := s.invocations ++ [(obs, rc)] } : Observing ι ω).setPc i .store).Inv
      topicPrefix := by
  have hat : s.subscriberAt topicPrefix .call i = some obs := by
    simp only [subscriberAt, hin, hpc, hinvokes, and_self, if_true]
  have hothers : ∀ j, j ≠ i → ∀ pc,
      (({ s with invocations := s.invocations ++ [(obs, rc)] } : Observing ι ω).setPc i
        .store).subscriberAt topicPrefix pc j = s.subscriberAt topicPrefix pc j := by
    intro j hj pc
    refine subscriberAt_congr ?_ ?_
    · rfl
    · exact setPc_of_ne _ hj _
  refine ⟨?_, ?_, ?_, h.once_concat rc hat⟩
  · intro j hj
    have hji : j ≠ i := by
      rintro rfl
      exact hj _ _ _ _ hin
    rw [setPc_of_ne _ hji]
    exact h.outside j hj
  · intro j o hj hasked
    have hji : j ≠ i := by
      rintro rfl
      rw [subscriberAt_eq_none (by rw [setPc_self]; exact nofun)] at hj
      cases hj
    rw [hothers j hji] at hj
    rcases asked_concat.mp hasked with hold | ⟨rfl, -⟩
    · exact h.unasked j o hj hold
    · exact hexclusive j hji hj
  · intro o hasked
    by_cases ho : o = obs
    · right
      refine ⟨i, ?_⟩
      rw [ho, subscriberAt, setPc_self]
      simp only [setPc, hin, hinvokes, and_self, if_true]
    · rcases asked_concat.mp hasked with hold | ⟨heq, -⟩
      · apply (h.stored o hold).imp_right
        rintro ⟨k, hk⟩
        have hki : k ≠ i := by
          rintro rfl
          rw [subscriberAt_eq_none (by rw [hpc]; exact nofun)] at hk
          cases hk
        exact ⟨k, (hothers k hki _).trans hk⟩
      · exact absurd heq ho

/-- The store of `false`. -/
private theorem Inv.store (h : s.Inv topicPrefix) {call : NotifyCall ω} {rest : List ω}
    {needsPrune : Bool} (hin : s.stream.threads i = .inObserver call obs rest needsPrune)
    (hs : ((s.onStream (.deactivate obs)).bind fun s ↦ s.leave i .returned) = some t) :
    t.Inv topicPrefix := by
  let stream := { s.stream with active := Function.update s.stream.active obs false }
  obtain ⟨hactive, hinvocations, hothers, hload⟩ := leave_spec (s := { s with stream }) hs
  have hasked : ∀ o, t.Asked o ↔ s.Asked o := fun o ↦ by rw [Asked, Asked, hinvocations]
  refine ⟨?_, ?_, ?_, by rw [hinvocations]; exact h.once⟩
  · intro j hj
    by_cases hji : j = i
    · rw [hji, hload]
    · rw [(hothers j hji).2]
      rw [(hothers j hji).1] at hj
      exact h.outside j hj
  · intro j o hj
    rw [hasked]
    have hji : j ≠ i := by
      rintro rfl
      rw [subscriberAt_eq_none (by rw [hload]; exact nofun)] at hj
      cases hj
    rw [subscriberAt_congr (s := s) (hothers j hji).1 (hothers j hji).2] at hj
    exact h.unasked j o hj
  · intro o ho
    rw [hactive]
    by_cases hobs : o = obs
    · left
      rw [hobs]
      exact Function.update_self _ _ _
    · rcases h.stored o ((hasked o).mp ho) with hcleared | ⟨k, hk⟩
      · left
        exact (Function.update_of_ne hobs _ _).trans hcleared
      · right
        have hki : k ≠ i := by
          rintro rfl
          simp only [subscriberAt, hin] at hk
          split at hk
          · exact hobs (Option.some.inj hk).symm
          · cases hk
        exact ⟨k, (subscriberAt_congr (hothers k hki).1 (hothers k hki).2).trans hk⟩

/-- A step inside an observer, of a thread that nobody disturbs. -/
private theorem Inv.stepObserver (h : s.Inv topicPrefix) {rc : Option Int32}
    {call : NotifyCall ω} {rest : List ω} {needsPrune : Bool}
    (hin : s.stream.threads i = .inObserver call obs rest needsPrune)
    (hexclusive : s.Exclusive topicPrefix (.observer i rc))
    (hs : s.stepObserver topicPrefix i obs call.notification rc = some t) :
    t.Inv topicPrefix := by
  rw [Observing.stepObserver] at hs
  split at hs
  · next hother =>
    refine h.leave ?_ hs
    have hinvokes : invokes topicPrefix obs call.notification = false := by
      rw [Option.isNone_iff_eq_none] at hother
      cases call.notification <;> simp [invokes, hother]
    simp [subscriberAt, hin, hinvokes]
  · split at hs
    · next hpc =>
      split at hs
      · next hactive =>
        cases hs
        exact h.passLoad hin hpc hactive hexclusive.1
      · exact h.leave (subscriberAt_eq_none (by rw [hpc]; exact nofun)) hs
    · next hpc =>
      split at hs
      · next hinvokes =>
        have hat : s.subscriberAt topicPrefix .call i = some obs := by
          simp only [subscriberAt, hin, hpc, hinvokes, and_self, if_true]
        split at hs
        · next hrc =>
          cases hs
          exact h.unsubscribe hin hpc hinvokes (hexclusive.2 obs hat hrc)
        · next hrc =>
          have hinvoked : Inv topicPrefix
              { s with invocations := s.invocations ++ [(obs, rc)] } := by
            refine h.quiet (fun _ ↦ .inl ⟨rfl, rfl⟩) rfl (fun o ↦ ?_) (h.once_concat rc hat)
            rw [asked_concat]
            simp [hrc]
          refine hinvoked.leave ?_ hs
          apply subscriberAt_eq_none
          rw [hpc]
          exact nofun
      · exact h.leave (subscriberAt_eq_none (by rw [hpc]; exact nofun)) hs
    · exact h.store hin hs

/-- Every step that meets the condition keeps the invariant. -/
private theorem Inv.step (h : s.Inv topicPrefix) {l : ObservingLabel ι ω}
    (hexclusive : s.Exclusive topicPrefix l) (hs : s.step topicPrefix l = some t) :
    t.Inv topicPrefix := by
  cases l with
  | subscribe observer =>
    refine h.onStream hs fun stream hstep ↦ ?_
    cases hstep
    cases observer <;> exact ⟨rfl, fun _ ↦ .inl rfl⟩
  | clear =>
    refine h.onStream hs fun stream hstep ↦ ?_
    cases hstep
    exact ⟨rfl, fun _ ↦ .inl rfl⟩
  | setEnabled enabled =>
    refine h.onStream hs fun stream hstep ↦ ?_
    cases hstep
    exact ⟨rfl, fun _ ↦ .inl rfl⟩
  | notify i notification =>
    refine h.onStream hs fun stream hstep ↦ ?_
    rw [ProcessedEventStream.step] at hstep
    split at hstep
    · next hidle =>
      cases hstep
      have hload : s.pcs i = .load := by
        apply h.outside i
        intro call obs rest needsPrune hin
        rw [hidle] at hin
        cases hin
      split
      · refine ⟨rfl, fun j ↦ ?_⟩
        by_cases hj : j = i
        · exact .inr (hj ▸ hload)
        · exact .inl (ProcessedEventStream.setThread_of_ne _ hj _)
      · exact ⟨rfl, fun _ ↦ .inl rfl⟩
    · cases hstep
  | thread i =>
    rw [Observing.step] at hs
    split at hs
    · cases hs
    · next hout =>
      refine h.onStream hs fun stream hstep ↦ ?_
      have hthread : s.stream.stepThread i .returned = some stream := hstep
      obtain ⟨hactive, hothers⟩ := ProcessedEventStream.stepThread_frame hthread
      refine ⟨hactive, fun j ↦ ?_⟩
      by_cases hj : j = i
      · exact .inr (hj ▸ h.outside i hout)
      · exact .inl (hothers j hj)
  | observer i rc =>
    rw [Observing.step] at hs
    split at hs
    · next hin => exact h.stepObserver hin hexclusive hs
    · cases hs

end Observing

/-- A callback that asked to be unsubscribed is not called again, as long as no thread loads
`active` between another one's non-zero return and its store, and no callback returns non-zero while
another thread is past its load. -/
theorem not_invoked_after_unsubscribe (ι : Type v) (ω : Type u) [DecidableEq ι] [DecidableEq ω]
    (topicPrefix : ω → Option Bytes) {s : Observing ι ω}
    (h : (observing ι ω topicPrefix).ReachableWith (Observing.Exclusive topicPrefix) s) :
    s.invocations.Pairwise fun a b ↦ a.1 = b.1 → ¬ unsubscribes a.2 := by
  have hinv : s.Inv topicPrefix := by
    refine Machine.ReachableWith.invariant ?_ (fun _ _ _ hi hg hs ↦ hi.step hg hs) h
    have hnone : ∀ obs, ¬ (observing ι ω topicPrefix).start.Asked obs := by
      rintro obs ⟨rc, hmem, -⟩
      exact absurd hmem List.not_mem_nil
    exact ⟨fun _ _ ↦ rfl, fun _ obs _ ↦ hnone obs, fun obs hobs ↦ absurd hobs (hnone obs),
      List.Pairwise.nil⟩
  exact hinv.once

/-- One thread's callback returns 1; the thread that notifies after its store does not call it. -/
theorem not_invoked_after_unsubscribe_stored :
    let m := observing Bool Nat fun _ ↦ some [97]
    ∃ s, m.ReachableWith (Observing.Exclusive fun _ ↦ some [97]) s ∧
      s.invocations = [(5, some 0), (5, some 1)] ∧ s.stream.returned.length = 3 ∧
      s.invocations.Pairwise fun a b ↦ a.1 = b.1 → ¬ unsubscribes a.2 := by
  intro m
  let note (i : Bool) : ObservingLabel Bool Nat :=
    .notify i (.processed ⟨⟨.tcp, .medium, 7, 0, 0, 0, 0⟩, [97, 98], [], [], 0⟩ .realtime)
  have hrun : (m.runWith (Observing.Exclusive fun _ ↦ some [97]) m.start
      [.subscribe (some 5), note true, .thread true, .thread true, .observer true none,
        .observer true (some 0), .thread true,
        note true, note false, .thread true, .thread false, .thread true, .thread false,
        .observer true none, .observer true (some 1), .observer true none, .observer false none,
        .thread true, .thread false]).map
      (fun s ↦ (s.invocations, s.stream.returned.length)) =
        some ([(5, some 0), (5, some 1)], 3) := by
    decide +kernel
  obtain ⟨s, hrun, hs⟩ := Option.map_eq_some_iff.mp hrun
  simp only [Prod.mk.injEq] at hs
  have hreach := Machine.ReachableWith.run .start hrun
  exact ⟨s, hreach, hs.1, hs.2, not_invoked_after_unsubscribe Bool Nat _ hreach⟩

/-- Two threads are past the load of `active` when the first callback returns 1; the second one
calls it all the same. -/
theorem invoked_after_unsubscribe :
    let m := observing Bool Nat fun _ ↦ some [97]
    ∃ s, m.Reachable s ∧ s.invocations = [(5, some 1), (5, some 0)] ∧
      ¬ s.invocations.Pairwise fun a b ↦ a.1 = b.1 → ¬ unsubscribes a.2 := by
  intro m
  let note (i : Bool) : ObservingLabel Bool Nat :=
    .notify i (.processed ⟨⟨.tcp, .medium, 7, 0, 0, 0, 0⟩, [97, 98], [], [], 0⟩ .realtime)
  have hrun : (m.run m.start
      [.subscribe (some 5), note true, note false, .thread true, .thread false, .thread true,
        .thread false, .observer true none, .observer false none, .observer true (some 1),
        .observer true none, .observer false (some 0)]).map (fun s ↦ s.invocations) =
        some [(5, some 1), (5, some 0)] := by
    decide +kernel
  obtain ⟨s, hrun, hs⟩ := Option.map_eq_some_iff.mp hrun
  refine ⟨s, Machine.Reachable.run .start hrun, hs, ?_⟩
  rw [hs]
  decide

end EventStreamCore.Bridge
