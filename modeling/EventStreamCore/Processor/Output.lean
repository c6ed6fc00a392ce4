import Mathlib.Order.WithBot
import EventStreamCore.Lib.Machine
import EventStreamCore.Processor.Processors

/-!
# The observer list

`ProcessedEventStream`, `include/eventstream/core/processor/output.hpp:26–121`, between any number
of threads. The list is never changed in place: `subscribe`, `clear` and `pruneInactive` install a
new one under the mutex, and a `notifyProcessed` or `notifyDropped` walks the one it loaded, testing
each observer and then calling it. Any observer may become inactive at any time and stays so.
-/

namespace EventStreamCore.Processor
open EventStreamCore.Events EventStreamCore.Lib

universe u v

/-- A mutex-protected body that ran, a prune with the observers that were active. -/
inductive ListOp (ω : Type u) where
  | subscribe (observer : ω)
  | clear
  | pruneInactive (active : ω → Bool)

/-- What a call of `notifyProcessed` or `notifyDropped` has done: the list it loaded, each
observer it reached with the answer of `isActive`, and the observers it called. -/
structure NotifyCall (ω : Type u) where
  notification : Notification
  snapshot : List ω
  tested : List (ω × Bool)
  called : List ω

/-- Where a thread stands in a call: before the load of the list, at the head of the loop, in an
observer, or about to prune. -/
inductive NotifyPc (ω : Type u) where
  | idle
  | load (notification : Notification)
  | loop (call : NotifyCall ω) (rest : List ω) (needsPrune : Bool)
  | inObserver (call : NotifyCall ω) (obs : ω) (rest : List ω) (needsPrune : Bool)
  | prune (call : NotifyCall ω)

/-- The stream, the threads in their calls, and what happened: the bodies that ran, in order, and
the calls that returned. -/
structure ProcessedEventStream (ι : Type v) (ω : Type u) where
  observersSnapshot : List ω
  enabled : Bool
  active : ω → Bool
  threads : ι → NotifyPc ω
  history : List (ListOp ω)
  returned : List (NotifyCall ω)

/-- What a step is: a body under the mutex, a change of a flag, the start of a call with its load
of `enabled_`, or the next step of a thread in its call, with how the observer it is in ends. -/
inductive StreamLabel (ι : Type v) (ω : Type u) where
  | subscribe (observer : Option ω)
  | clear
  | setEnabled (enabled : Bool)
  | deactivate (observer : ω)
  | notify (i : ι) (notification : Notification)
  | thread (i : ι) (outcome : Outcome)

namespace ProcessedEventStream

variable {ι : Type v} {ω : Type u}

/-- `subscribe`; `output.hpp:33–41`. -/
def subscribe (s : ProcessedEventStream ι ω) : Option ω → ProcessedEventStream ι ω
  | none => s
  | some observer =>
    { s with
      observersSnapshot := s.observersSnapshot ++ [observer]
      history := s.history ++ [.subscribe observer] }

/-- `clear`; `output.hpp:43–47`. -/
def clear (s : ProcessedEventStream ι ω) : ProcessedEventStream ι ω :=
  { s with observersSnapshot := [], history := s.history ++ [.clear] }

/-- `pruneInactive`, `output.hpp:99–117`. -/
def pruneInactive (s : ProcessedEventStream ι ω) : ProcessedEventStream ι ω :=
  { s with
    observersSnapshot :=
      if s.observersSnapshot.isEmpty then s.observersSnapshot
      else s.observersSnapshot.filter s.active
    history := s.history ++ [.pruneInactive s.active] }

variable [DecidableEq ι]

/-- Move a thread. -/
def setThread (s : ProcessedEventStream ι ω) (i : ι) (pc : NotifyPc ω) :
    ProcessedEventStream ι ω :=
  { s with threads := Function.update s.threads i pc }

/-- The thread that moved. -/
theorem setThread_self (s : ProcessedEventStream ι ω) (i : ι) (pc : NotifyPc ω) :
    (s.setThread i pc).threads i = pc := Function.update_self _ _ _

/-- The other threads stay where they are. -/
theorem setThread_of_ne (s : ProcessedEventStream ι ω) {i j : ι} (h : j ≠ i) (pc : NotifyPc ω) :
    (s.setThread i pc).threads j = s.threads j := Function.update_of_ne h _ _

/-- Return from a call. -/
def finish (s : ProcessedEventStream ι ω) (i : ι) (call : NotifyCall ω) :
    ProcessedEventStream ι ω :=
  { s.setThread i .idle with returned := s.returned ++ [call] }

/-- One step of a call, `output.hpp:49–79`. -/
def stepThread (s : ProcessedEventStream ι ω) (i : ι) (outcome : Outcome) :
    Option (ProcessedEventStream ι ω) :=
  match s.threads i with
  | .idle => none
  | .load notification =>
    let call : NotifyCall ω := ⟨notification, s.observersSnapshot, [], []⟩
    some (if s.observersSnapshot.isEmpty then s.finish i call
      else s.setThread i (.loop call s.observersSnapshot false))
  | .loop call [] needsPrune =>
    some (if needsPrune then s.setThread i (.prune call) else s.finish i call)
  | .loop call (obs :: rest) needsPrune =>
    let call := { call with tested := call.tested ++ [(obs, s.active obs)] }
    some (s.setThread i
      (if s.active obs then .inObserver call obs rest needsPrune else .loop call rest true))
  | .inObserver call obs rest needsPrune =>
    let call := { call with called := call.called ++ [obs] }
    match outcome with
    | .returned => some (s.setThread i (.loop call rest needsPrune))
    -- `catch (...) {}`
    | .threw => some (s.setThread i (.loop call rest needsPrune))
  | .prune call => some (s.pruneInactive.finish i call)

/-- A step of a call concerns no other thread and no observer's flag. -/
theorem stepThread_frame {s t : ProcessedEventStream ι ω} {i : ι} {outcome : Outcome}
    (h : s.stepThread i outcome = some t) :
    t.active = s.active ∧ ∀ j, j ≠ i → t.threads j = s.threads j := by
  rw [stepThread] at h
  split at h
  · cases h
  · cases h
    split
    · exact ⟨rfl, fun j hj ↦ s.setThread_of_ne hj _⟩
    · exact ⟨rfl, fun j hj ↦ s.setThread_of_ne hj _⟩
  · cases h
    split
    · exact ⟨rfl, fun j hj ↦ s.setThread_of_ne hj _⟩
    · exact ⟨rfl, fun j hj ↦ s.setThread_of_ne hj _⟩
  · cases h
    exact ⟨rfl, fun j hj ↦ s.setThread_of_ne hj _⟩
  · cases outcome with
    | returned =>
      cases h
      exact ⟨rfl, fun j hj ↦ s.setThread_of_ne hj _⟩
    | threw =>
      cases h
      exact ⟨rfl, fun j hj ↦ s.setThread_of_ne hj _⟩
  · cases h
    exact ⟨rfl, fun j hj ↦ s.setThread_of_ne hj _⟩

/-- One step. -/
def step [DecidableEq ω] (s : ProcessedEventStream ι ω) :
    StreamLabel ι ω → Option (ProcessedEventStream ι ω)
  | .subscribe observer => some (s.subscribe observer)
  | .clear => some s.clear
  | .setEnabled enabled => some { s with enabled }
  | .deactivate observer => some { s with active := Function.update s.active observer false }
  | .notify i notification =>
    match s.threads i with
    | .idle => some (if s.enabled then s.setThread i (.load notification) else s)
    | _ => none
  | .thread i outcome => s.stepThread i outcome

end ProcessedEventStream

/-- All runs of the threads `ι` with the observers `ω`. -/
def processedEventStream (ι : Type v) (ω : Type u) [DecidableEq ι] [DecidableEq ω] :
    Machine (ProcessedEventStream ι ω) (StreamLabel ι ω) where
  start := ⟨[], true, fun _ ↦ true, fun _ ↦ .idle, [], []⟩
  step := ProcessedEventStream.step

/-! ### The list -/

section List

variable {ω : Type u}

/-- Does a subscription of `observer` survive a later body? -/
def ListOp.keeps (observer : ω) : ListOp ω → Bool
  | .subscribe _ => true
  | .clear => false
  | .pruneInactive active => active observer

/-- The observers subscribed since the last `clear`, in order, without those that were inactive
when a later prune ran. -/
def surviving : List (ListOp ω) → List ω
  | [] => []
  | .subscribe observer :: later =>
    if later.all (ListOp.keeps observer) then observer :: surviving later else surviving later
  | _ :: later => surviving later

/-- One more body leaves the subscriptions that survive it, and adds its own. -/
private theorem surviving_concat (history : List (ListOp ω)) (op : ListOp ω) :
    surviving (history ++ [op]) =
      (surviving history).filter (fun observer ↦ op.keeps observer) ++ surviving [op] := by
  induction history with
  | nil => rfl
  | cons first history ih =>
    cases first with
    | subscribe observer =>
      simp only [List.cons_append, surviving, List.all_append, List.all_cons, List.all_nil,
        Bool.and_true, ih]
      by_cases hlater : history.all (ListOp.keeps observer) = true
      · by_cases hop : op.keeps observer = true
        · simp [hlater, hop]
        · simp [hlater, hop]
      · simp [hlater]
    | clear => exact ih
    | pruneInactive active => exact ih

/-- A subscription comes last. -/
theorem surviving_subscribe (history : List (ListOp ω)) (observer : ω) :
    surviving (history ++ [.subscribe observer]) = surviving history ++ [observer] := by
  rw [surviving_concat]
  simp [ListOp.keeps, surviving]

/-- Nothing survives a `clear`. -/
theorem surviving_clear (history : List (ListOp ω)) :
    surviving (history ++ [.clear]) = [] := by
  rw [surviving_concat]
  simp [ListOp.keeps, surviving]

/-- A prune leaves the active ones. -/
theorem surviving_pruneInactive (history : List (ListOp ω)) (active : ω → Bool) :
    surviving (history ++ [.pruneInactive active]) = (surviving history).filter active := by
  rw [surviving_concat]
  simp [ListOp.keeps, surviving]

end List

/-! ### The calls -/

namespace NotifyCall

variable {ω : Type u}

/-- The call has reached its list up to `rest`, and called the observers that were active when it
reached them, once each and in order, up to `pending`. -/
def At (call : NotifyCall ω) (rest pending : List ω) : Prop :=
  call.tested.map Prod.fst ++ rest = call.snapshot ∧
    call.called ++ pending = (call.tested.filter Prod.snd).map Prod.fst

/-- The call has walked its whole list. -/
def Complete (call : NotifyCall ω) : Prop :=
  call.tested.map Prod.fst = call.snapshot ∧
    call.called = (call.tested.filter Prod.snd).map Prod.fst

theorem At.complete {call : NotifyCall ω} (h : call.At [] []) : call.Complete := by
  obtain ⟨hreached, hcalled⟩ := h
  rw [List.append_nil] at hreached hcalled
  exact ⟨hreached, hcalled⟩

end NotifyCall

/-- What a thread in a call has done. -/
def NotifyPc.At {ω : Type u} : NotifyPc ω → Prop
  | .idle => True
  | .load _ => True
  | .loop call rest _ => call.At rest []
  | .inObserver call obs rest _ => call.At rest [obs]
  | .prune call => call.Complete

/-- How many steps a thread has still to make, which is open until it has loaded the list. -/
def NotifyPc.stepsLeft {ω : Type u} : NotifyPc ω → WithTop Nat
  | .idle => WithTop.some 0
  | .load _ => ⊤
  | .loop _ rest _ => WithTop.some (2 * rest.length + 2)
  | .inObserver _ _ rest _ => WithTop.some (2 * rest.length + 3)
  | .prune _ => WithTop.some 1

namespace ProcessedEventStream

variable {ι : Type v} {ω : Type u} [DecidableEq ι] {s t : ProcessedEventStream ι ω}

/-- The list is what survives of the subscriptions, and every call has done what it should. -/
structure Inv (s : ProcessedEventStream ι ω) : Prop where
  list : s.observersSnapshot = surviving s.history
  threads : ∀ i, (s.threads i).At
  returned : ∀ call ∈ s.returned, call.Complete

omit [DecidableEq ι] in
private theorem pruneInactive_snapshot (s : ProcessedEventStream ι ω) :
    s.pruneInactive.observersSnapshot = s.observersSnapshot.filter s.active := by
  unfold pruneInactive
  cases s.observersSnapshot with
  | nil => rfl
  | cons obs rest => rfl

omit [DecidableEq ι] in
private theorem Inv.pruneInactive (h : s.Inv) : s.pruneInactive.Inv := by
  refine ⟨?_, h.threads, h.returned⟩
  rw [pruneInactive_snapshot, h.list]
  exact (surviving_pruneInactive _ _).symm

private theorem Inv.setThread (h : s.Inv) {i : ι} {pc : NotifyPc ω} (hpc : pc.At) :
    (s.setThread i pc).Inv := by
  refine ⟨h.list, ?_, h.returned⟩
  intro j
  by_cases hj : j = i
  · rw [hj, s.setThread_self]
    exact hpc
  · rw [s.setThread_of_ne hj]
    exact h.threads j

private theorem Inv.finish (h : s.Inv) {i : ι} {call : NotifyCall ω} (hcall : call.Complete) :
    (s.finish i call).Inv := by
  have hset : (s.setThread i .idle).Inv := h.setThread trivial
  refine ⟨hset.list, hset.threads, ?_⟩
  intro c hc
  rcases List.mem_append.mp hc with hold | hnew
  · exact h.returned c hold
  · rw [List.mem_singleton.mp hnew]
    exact hcall

/-- A step of a call keeps its account. -/
private theorem Inv.stepThread (h : s.Inv) {i : ι} {outcome : Outcome}
    (hs : s.stepThread i outcome = some t) : t.Inv := by
  have hat := h.threads i
  rw [ProcessedEventStream.stepThread] at hs
  split at hs
  · cases hs
  · cases hs
    split
    · next hempty =>
      refine h.finish ⟨?_, rfl⟩
      exact (List.isEmpty_iff.mp hempty).symm
    · exact h.setThread ⟨rfl, rfl⟩
  · next call needsPrune hpc =>
    rw [hpc] at hat
    cases hs
    split
    · exact h.setThread (NotifyCall.At.complete hat)
    · exact h.finish (NotifyCall.At.complete hat)
  · next call obs rest needsPrune hpc =>
    rw [hpc] at hat
    obtain ⟨hreached, hcalled⟩ := hat
    cases hs
    apply h.setThread
    have hreached' : (call.tested ++ [(obs, s.active obs)]).map Prod.fst ++ rest =
        call.snapshot := by
      rw [← hreached]
      simp
    split
    · next hactive =>
      refine ⟨hreached', ?_⟩
      rw [List.append_nil] at hcalled
      simp [hcalled, hactive]
    · next hinactive =>
      refine ⟨hreached', ?_⟩
      simpa [hinactive] using hcalled
  · next call obs rest needsPrune hpc =>
    rw [hpc] at hat
    have hnext : NotifyCall.At { call with called := call.called ++ [obs] } rest [] :=
      ⟨hat.1, (List.append_nil _).trans hat.2⟩
    cases outcome with
    | returned =>
      cases hs
      exact h.setThread hnext
    | threw =>
      cases hs
      exact h.setThread hnext
  · next call hpc =>
    rw [hpc] at hat
    cases hs
    exact h.pruneInactive.finish hat

/-- Every step keeps the list and the calls. -/
private theorem Inv.step [DecidableEq ω] (h : s.Inv) {l : StreamLabel ι ω}
    (hs : s.step l = some t) : t.Inv := by
  cases l with
  | subscribe observer =>
    cases hs
    cases observer with
    | none => exact h
    | some observer =>
      refine ⟨?_, h.threads, h.returned⟩
      change s.observersSnapshot ++ [observer] = _
      rw [h.list]
      exact (surviving_subscribe _ _).symm
  | clear =>
    cases hs
    exact ⟨(surviving_clear _).symm, h.threads, h.returned⟩
  | setEnabled enabled =>
    cases hs
    exact ⟨h.list, h.threads, h.returned⟩
  | deactivate observer =>
    cases hs
    exact ⟨h.list, h.threads, h.returned⟩
  | notify i notification =>
    rw [ProcessedEventStream.step] at hs
    split at hs
    · cases hs
      split
      · exact h.setThread trivial
      · exact h
    · cases hs
  | thread i outcome => exact h.stepThread hs

/-- A thread in a call has a next step, however the observer it is in ends, and is then nearer to
the end of the call. -/
private theorem stepThread_progress (s : ProcessedEventStream ι ω) (i : ι) (outcome : Outcome) :
    s.threads i = .idle ∨ ∃ t, s.stepThread i outcome = some t ∧
      (t.threads i).stepsLeft < (s.threads i).stepsLeft := by
  have hset : ∀ (u : ProcessedEventStream ι ω) (pc : NotifyPc ω),
      pc.stepsLeft < (s.threads i).stepsLeft →
      ((u.setThread i pc).threads i).stepsLeft < (s.threads i).stepsLeft := by
    intro u pc hlt
    rw [u.setThread_self]
    exact hlt
  rw [stepThread]
  split
  · next hpc => exact .inl hpc
  · next notification hpc =>
    refine .inr ⟨_, rfl, ?_⟩
    split
    · exact hset s .idle (by rw [hpc]; exact WithTop.coe_lt_top _)
    · exact hset s _ (by rw [hpc]; exact WithTop.coe_lt_top _)
  · next call needsPrune hpc =>
    refine .inr ⟨_, rfl, ?_⟩
    split
    · exact hset s _ (by rw [hpc]; exact WithTop.coe_lt_coe.mpr (by simp))
    · exact hset s .idle (by rw [hpc]; exact WithTop.coe_lt_coe.mpr (by simp))
  · next call obs rest needsPrune hpc =>
    refine .inr ⟨_, rfl, ?_⟩
    apply hset
    rw [hpc]
    split
    · exact WithTop.coe_lt_coe.mpr (by simp only [List.length_cons]; omega)
    · exact WithTop.coe_lt_coe.mpr (by simp only [List.length_cons]; omega)
  · next call obs rest needsPrune hpc =>
    have hlt : (NotifyPc.loop { call with called := call.called ++ [obs] } rest
        needsPrune).stepsLeft < (s.threads i).stepsLeft := by
      rw [hpc]
      exact WithTop.coe_lt_coe.mpr (by omega)
    cases outcome with
    | returned => exact .inr ⟨_, rfl, hset s _ hlt⟩
    | threw => exact .inr ⟨_, rfl, hset s _ hlt⟩
  · next call hpc =>
    exact .inr ⟨_, rfl, hset s.pruneInactive .idle (by
      rw [hpc]
      exact WithTop.coe_lt_coe.mpr (by omega))⟩

end ProcessedEventStream

/-- No subscription is lost and no active observer is passed over. In every reachable state the
installed list is the observers subscribed since the last `clear`, in order, less those that were
inactive when a later prune ran. Every call that returned had reached each entry of the list it
loaded, in order, and called exactly those that were active when it reached them, once each, however
the observers ended. And a thread in a call always has a next step, which brings it nearer to its
return. -/
theorem observers_kept_and_called (ι : Type v) (ω : Type u) [DecidableEq ι] [DecidableEq ω]
    {s : ProcessedEventStream ι ω} (h : (processedEventStream ι ω).Reachable s) :
    s.observersSnapshot = surviving s.history ∧
    (∀ call ∈ s.returned, call.tested.map Prod.fst = call.snapshot ∧
      call.called = (call.tested.filter Prod.snd).map Prod.fst) ∧
    (∀ i outcome, s.threads i = .idle ∨ ∃ t, s.step (.thread i outcome) = some t ∧
      (t.threads i).stepsLeft < (s.threads i).stepsLeft) := by
  have hinv : s.Inv := by
    refine Machine.Reachable.invariant ?_ (fun _ _ _ hi hs ↦ hi.step hs) h
    exact ⟨rfl, fun _ ↦ trivial, fun _ hcall ↦ absurd hcall List.not_mem_nil⟩
  refine ⟨hinv.list, hinv.returned, ?_⟩
  intro i outcome
  exact s.stepThread_progress i outcome

/-- While a thread walks its list, the first observer goes inactive and a third one subscribes; the
second one throws, and the prune keeps the newcomer. -/
theorem observers_kept_and_called_pruned :
    let m := processedEventStream Bool Nat
    ∃ s, m.Reachable s ∧ s.observersSnapshot = [2, 3] ∧ surviving s.history = [2, 3] ∧
      ∃ call ∈ s.returned, call.snapshot = [1, 2] ∧ call.tested.map Prod.fst = [1, 2] ∧
        call.called = [2] ∧ call.called = (call.tested.filter Prod.snd).map Prod.fst := by
  intro m
  let event : Event := ⟨⟨.tcp, .medium, 7, 0, 0, 0, 0⟩, [97], [], [], 0⟩
  have hrun : (m.run m.start
      (List.flatten [[.subscribe (some 1), .subscribe (some 2),
        .notify true (.processed event .realtime), .thread true .returned, .deactivate 1,
        .subscribe (some 3)], List.replicate 5 (.thread true .threw)])).map
      (fun s ↦ (s.observersSnapshot, s.returned.map fun call ↦ (call.snapshot, call.called))) =
        some ([2, 3], [([1, 2], [2])]) := by
    decide +kernel
  obtain ⟨s, hrun, hs⟩ := Option.map_eq_some_iff.mp hrun
  simp only [Prod.mk.injEq] at hs
  obtain ⟨hlist, hreturned⟩ := hs
  have hreach := Machine.Reachable.run .start hrun
  obtain ⟨hsurviving, hcalls, -⟩ := observers_kept_and_called Bool Nat hreach
  refine ⟨s, hreach, hlist, hsurviving.symm.trans hlist, ?_⟩
  obtain ⟨call, hcall, hpair⟩ := List.map_eq_singleton_iff.mp hreturned
  have hmem : call ∈ s.returned := by
    rw [hcall]
    exact List.mem_singleton_self call
  obtain ⟨hsnapshot, hcalled⟩ := Prod.mk.inj hpair
  obtain ⟨hreached, hactive⟩ := hcalls call hmem
  exact ⟨call, hmem, hsnapshot, hreached.trans hsnapshot, hcalled, hactive⟩

end EventStreamCore.Processor
