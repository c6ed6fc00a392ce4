import Mathlib.Data.Fintype.Basic
import EventStreamCore.Lib.Machine

/-!
# Observability calls and the engine pointer

`esccore_metrics` and `esccore_health`, `src/bridge/esccore.cpp:225–260`, from any threads, next to
`esccore_init` and `esccore_shutdown`, `esccore.cpp:96–192`, from one thread. Every access to
`g_initialised` and `g_engine` and every dereference of `g_engine` is a step. An `Engine` is named
by the number of its construction, so a stale pointer never becomes a good one again.
-/

namespace EventStreamCore.Bridge
open EventStreamCore.Lib

universe v

/-- A use of `g_engine->` in `esccore_shutdown`; `esccore.cpp:170–180`. -/
inductive EngineAccess where
  | testUdp | stopUdp | testTcp | stopTcp | stopProcessManager | stopDispatcher
deriving DecidableEq, Repr

/-- Where the thread of `esccore_init` and `esccore_shutdown` stands, both behind their load of
`g_initialised`. -/
inductive LifecyclePc where
  | idle
  | build
  | setEngine (eng : Nat)
  | setInitialised
  | clearInitialised
  | testEngine
  | load (access : EngineAccess)
  | deref (access : EngineAccess) (engine : Option Nat)
  | loadDelete
  | delete (engine : Option Nat)
  | setNull
deriving DecidableEq, Repr

/-- Where an observability call stands behind its first load of `g_initialised`: before the second
one, before a load of `g_engine`, or before its dereference, with the number of uses still to
come. -/
inductive ObservabilityPc where
  | idle
  | loadInitialised
  | load (uses : Nat)
  | deref (engine : Option Nat) (uses : Nat)
deriving DecidableEq, Repr

/-- The globals, the engines constructed and deleted so far, the threads, and the dereferences of a
null or deleted engine. -/
structure Globals (ι : Type v) where
  initialised : Bool
  engine : Option Nat
  created : Nat
  deleted : List Nat
  lifecycle : LifecyclePc
  calls : ι → ObservabilityPc
  faults : List (Option Nat)

/-- What a step is: a call with its load of `g_initialised`, an observability call with whether
`out` is not null, the next step of the lifecycle thread, with whether a server is there and whether
what it calls throws, or the next step of an observability call. -/
inductive GlobalsLabel (ι : Type v) where
  | init
  | shutdown
  | lifecycle (present throws : Bool)
  | metrics (i : ι) (out : Bool)
  | health (i : ι) (out : Bool)
  | call (i : ι)

/-- Is `delete g_engine` the next step? -/
def LifecyclePc.deletes : LifecyclePc → Bool
  | .delete _ => true
  | _ => false

/-- What follows a use of `g_engine->`; an exception ends `esccore_shutdown`. -/
def EngineAccess.next (present throws : Bool) : EngineAccess → LifecyclePc
  | .testUdp => .load (if present then .stopUdp else .testTcp)
  | .stopUdp => if throws then .idle else .load .testTcp
  | .testTcp => .load (if present then .stopTcp else .stopProcessManager)
  | .stopTcp => if throws then .idle else .load .stopProcessManager
  | .stopProcessManager => if throws then .idle else .load .stopDispatcher
  | .stopDispatcher => if throws then .idle else .loadDelete

namespace Globals

variable {ι : Type v}

/-- Is there no engine behind a pointer? -/
def missing (s : Globals ι) : Option Nat → Bool
  | none => true
  | some e => s.deleted.contains e

/-- Dereference a pointer. -/
def deref (s : Globals ι) (p : Option Nat) : Globals ι :=
  { s with faults := if s.missing p then s.faults ++ [p] else s.faults }

/-- One step of `esccore_init`, `esccore.cpp:100–156`, or `esccore_shutdown`,
`esccore.cpp:167–184`. -/
def stepLifecycle (s : Globals ι) (present throws : Bool) : Option (Globals ι) :=
  match s.lifecycle with
  | .idle => none
  | .build =>
    some { s with
      created := s.created + 1
      lifecycle := if throws then .idle else .setEngine s.created }
  | .setEngine eng => some { s with engine := some eng, lifecycle := .setInitialised }
  | .setInitialised => some { s with initialised := true, lifecycle := .idle }
  | .clearInitialised => some { s with initialised := false, lifecycle := .testEngine }
  | .testEngine =>
    some { s with lifecycle := if s.engine.isSome then .load .testUdp else .idle }
  | .load access => some { s with lifecycle := .deref access s.engine }
  | .deref access p => some { s.deref p with lifecycle := access.next present throws }
  | .loadDelete => some { s with lifecycle := .delete s.engine }
  | .delete p => some { s with deleted := s.deleted ++ p.toList, lifecycle := .setNull }
  | .setNull => some { s with engine := none, lifecycle := .idle }

variable [DecidableEq ι]

/-- Move an observability call. -/
def setCall (s : Globals ι) (i : ι) (pc : ObservabilityPc) : Globals ι :=
  { s with calls := Function.update s.calls i pc }

/-- The call that moved. -/
theorem setCall_self (s : Globals ι) (i : ι) (pc : ObservabilityPc) :
    (s.setCall i pc).calls i = pc := Function.update_self _ _ _

/-- The other calls stay where they are. -/
theorem setCall_of_ne (s : Globals ι) {i j : ι} (h : j ≠ i) (pc : ObservabilityPc) :
    (s.setCall i pc).calls j = s.calls j := Function.update_of_ne h _ _

/-- One step of an observability call. -/
def stepCall (s : Globals ι) (i : ι) : Option (Globals ι) :=
  match s.calls i with
  | .idle => none
  | .loadInitialised => some (s.setCall i (.load 1))
  | .load uses => some (s.setCall i (.deref s.engine uses))
  | .deref p uses =>
    some ((s.deref p).setCall i (if uses = 1 then .idle else .load (uses - 1)))

/-- One step. `esccore_metrics` uses `g_engine` four times, `esccore_health` once. -/
def step (s : Globals ι) : GlobalsLabel ι → Option (Globals ι)
  | .init =>
    if s.lifecycle = .idle then
      some (if s.initialised then s else { s with lifecycle := .build })
    else none
  | .shutdown =>
    if s.lifecycle = .idle then
      some (if s.initialised then { s with lifecycle := .clearInitialised } else s)
    else none
  | .lifecycle present throws => s.stepLifecycle present throws
  | .metrics i out =>
    if s.calls i = .idle then some (if s.initialised && out then s.setCall i (.load 4) else s)
    else none
  | .health i out =>
    if s.calls i = .idle then
      some (if s.initialised && out then s.setCall i .loadInitialised else s)
    else none
  | .call i => s.stepCall i

omit [DecidableEq ι] in
/-- The engine is deleted only while no observability call is past its test of `g_initialised`. -/
def Quiescent (s : Globals ι) : GlobalsLabel ι → Prop
  | .lifecycle _ _ => s.lifecycle.deletes → ∀ i, s.calls i = .idle
  | _ => True

instance [Fintype ι] (s : Globals ι) : (l : GlobalsLabel ι) → Decidable (s.Quiescent l)
  | .init => inferInstanceAs (Decidable True)
  | .shutdown => inferInstanceAs (Decidable True)
  | .lifecycle _ _ => inferInstanceAs (Decidable (_ → _))
  | .metrics _ _ => inferInstanceAs (Decidable True)
  | .health _ _ => inferInstanceAs (Decidable True)
  | .call _ => inferInstanceAs (Decidable True)

end Globals

/-- All runs of observability calls on the threads `ι` and one lifecycle thread. -/
def globals (ι : Type v) [DecidableEq ι] : Machine (Globals ι) (GlobalsLabel ι) where
  start := ⟨false, none, 0, [], .idle, fun _ ↦ .idle, []⟩
  step := Globals.step

/-! ### Every pointer in use leads to an engine -/

namespace Globals

variable {ι : Type v} {s t : Globals ι} {p : Option Nat}

/-- The pointer leads to an engine that is not deleted. -/
def Live (s : Globals ι) (p : Option Nat) : Prop :=
  ∃ e, p = some e ∧ e < s.created ∧ e ∉ s.deleted

/-- What the lifecycle thread knows of the globals. -/
def LifecycleAt (s : Globals ι) : LifecyclePc → Prop
  | .idle => True
  | .build => s.initialised = false
  | .setEngine eng => s.initialised = false ∧ s.Live (some eng)
  | .setInitialised => s.Live s.engine
  | .clearInitialised => s.Live s.engine
  | .testEngine => s.initialised = false ∧ s.Live s.engine
  | .load _ => s.initialised = false ∧ s.Live s.engine
  | .deref _ p => (s.initialised = false ∧ s.Live s.engine) ∧ s.Live p
  | .loadDelete => s.initialised = false ∧ s.Live s.engine
  | .delete p => s.initialised = false ∧ s.Live p
  | .setNull => s.initialised = false ∧ ∀ i, s.calls i = .idle

/-- While the flag is set or a call is past its test of it, there is an engine, and so there is
behind every pointer a call has loaded. -/
structure Inv (s : Globals ι) : Prop where
  fresh : ∀ e ∈ s.deleted, e < s.created
  initialised : s.initialised = true → s.Live s.engine
  calls : ∀ i, s.calls i ≠ .idle → s.Live s.engine
  loaded : ∀ i p uses, s.calls i = .deref p uses → s.Live p
  lifecycle : s.LifecycleAt s.lifecycle
  faults : s.faults = []

/-- Dereferencing a good pointer is no fault. -/
private theorem deref_of_live (h : s.Live p) : s.deref p = s := by
  obtain ⟨e, rfl, -, he⟩ := h
  have hmissing : s.missing (some e) = false := by
    rw [missing, List.contains_eq_mem, decide_eq_false he]
  rw [deref, hmissing]
  rfl

/-- The lifecycle thread moves without touching the globals. -/
private theorem Inv.moveLifecycle (h : s.Inv) {pc : LifecyclePc} (hpc : s.LifecycleAt pc) :
    ({ s with lifecycle := pc } : Globals ι).Inv := by
  refine ⟨h.fresh, h.initialised, h.calls, h.loaded, ?_, h.faults⟩
  cases pc <;> exact hpc

/-- However `esccore_shutdown` goes on from a use of `g_engine->`, the engine is in place. -/
private theorem lifecycleAt_next (h : s.initialised = false ∧ s.Live s.engine)
    (access : EngineAccess) (present throws : Bool) :
    s.LifecycleAt (access.next present throws) := by
  cases access with
  | testUdp => exact h
  | testTcp => exact h
  | _ => cases throws <;> first | exact h | trivial

/-- A new engine is none of the deleted ones. -/
private theorem Inv.build (h : s.Inv) (hoff : s.initialised = false) (throws : Bool) :
    ({ s with
      created := s.created + 1
      lifecycle := if throws then .idle else .setEngine s.created } : Globals ι).Inv := by
  have hgrow : ∀ p, s.Live p → ∃ e, p = some e ∧ e < s.created + 1 ∧ e ∉ s.deleted := by
    rintro p ⟨e, rfl, hlt, he⟩
    exact ⟨e, rfl, Nat.lt_succ_of_lt hlt, he⟩
  refine ⟨?_, ?_, ?_, ?_, ?_, h.faults⟩
  · intro e he
    exact Nat.lt_succ_of_lt (h.fresh e he)
  · intro hon
    exact hgrow _ (h.initialised hon)
  · intro i hi
    exact hgrow _ (h.calls i hi)
  · intro i p uses hp
    exact hgrow _ (h.loaded i p uses hp)
  · cases throws with
    | true => trivial
    | false =>
      refine ⟨hoff, s.created, rfl, Nat.lt_succ_self _, ?_⟩
      intro he
      exact Nat.lt_irrefl _ (h.fresh _ he)

/-- No call is past its test at the delete, so nobody holds the pointer that goes stale. -/
private theorem Inv.delete (h : s.Inv) (hoff : s.initialised = false) (hlive : s.Live p)
    (hidle : ∀ i, s.calls i = .idle) :
    ({ s with deleted := s.deleted ++ p.toList, lifecycle := .setNull } : Globals ι).Inv := by
  obtain ⟨e, rfl, hlt, -⟩ := hlive
  refine ⟨?_, ?_, ?_, ?_, ⟨hoff, hidle⟩, h.faults⟩
  · intro a ha
    rcases List.mem_append.mp ha with hold | hnew
    · exact h.fresh a hold
    · rw [List.mem_singleton.mp hnew]
      exact hlt
  · intro hon
    exact absurd hon (by simp [hoff])
  · intro i hi
    exact absurd (hidle i) hi
  · intro i p uses hp
    rw [hidle i] at hp
    cases hp

/-- A step of `esccore_init` or `esccore_shutdown`. -/
private theorem Inv.stepLifecycle (h : s.Inv) {present throws : Bool}
    (hquiet : s.Quiescent (.lifecycle present throws))
    (hs : s.stepLifecycle present throws = some t) : t.Inv := by
  have hat := h.lifecycle
  rw [Globals.stepLifecycle] at hs
  split at hs
  · cases hs
  · next hpc =>
    rw [hpc] at hat
    cases hs
    exact h.build hat throws
  · next eng hpc =>
    rw [hpc] at hat
    cases hs
    exact ⟨h.fresh, fun _ ↦ hat.2, fun _ _ ↦ hat.2, h.loaded, hat.2, h.faults⟩
  · next hpc =>
    rw [hpc] at hat
    cases hs
    exact ⟨h.fresh, fun _ ↦ hat, h.calls, h.loaded, trivial, h.faults⟩
  · next hpc =>
    rw [hpc] at hat
    cases hs
    exact ⟨h.fresh, nofun, h.calls, h.loaded, ⟨rfl, hat⟩, h.faults⟩
  · next hpc =>
    rw [hpc] at hat
    cases hs
    apply h.moveLifecycle
    split
    · exact hat
    · trivial
  · next access hpc =>
    rw [hpc] at hat
    cases hs
    exact h.moveLifecycle ⟨hat, hat.2⟩
  · next access p hpc =>
    rw [hpc] at hat
    cases hs
    rw [deref_of_live hat.2]
    exact h.moveLifecycle (lifecycleAt_next hat.1 access present throws)
  · next hpc =>
    rw [hpc] at hat
    cases hs
    exact h.moveLifecycle hat
  · next p hpc =>
    rw [hpc] at hat
    cases hs
    exact h.delete hat.1 hat.2 (hquiet (by rw [hpc]; rfl))
  · next hpc =>
    rw [hpc] at hat
    cases hs
    obtain ⟨hoff, hidle⟩ := hat
    refine ⟨h.fresh, ?_, ?_, h.loaded, trivial, h.faults⟩
    · intro hon
      exact absurd hon (by simp [hoff])
    · intro i hi
      exact absurd (hidle i) hi

variable [DecidableEq ι]

/-- An observability call moves. -/
private theorem Inv.setCall (h : s.Inv) {i : ι} {pc : ObservabilityPc} (hengine : s.Live s.engine)
    (hpc : ∀ p uses, pc = .deref p uses → s.Live p) (hin : s.lifecycle ≠ .setNull) :
    (s.setCall i pc).Inv := by
  refine ⟨h.fresh, h.initialised, fun _ _ ↦ hengine, ?_, ?_, h.faults⟩
  · intro j p uses hj
    by_cases hji : j = i
    · rw [hji, s.setCall_self] at hj
      exact hpc p uses hj
    · rw [s.setCall_of_ne hji] at hj
      exact h.loaded j p uses hj
  · have hat := h.lifecycle
    change (s.setCall i pc).LifecycleAt s.lifecycle
    cases hl : s.lifecycle with
    | setNull => exact absurd hl hin
    | _ =>
      rw [hl] at hat
      exact hat

omit [DecidableEq ι] in
/-- While a call is under way, the pointer is not about to be cleared. -/
private theorem Inv.not_setNull (h : s.Inv) {i : ι} (hi : s.calls i ≠ .idle) :
    s.lifecycle ≠ .setNull := by
  intro hl
  have hat := h.lifecycle
  rw [hl] at hat
  exact hi (hat.2 i)

/-- A step of an observability call. -/
private theorem Inv.stepCall (h : s.Inv) {i : ι} (hs : s.stepCall i = some t) : t.Inv := by
  rw [Globals.stepCall] at hs
  split at hs
  · cases hs
  · next hpc =>
    cases hs
    have hbusy : s.calls i ≠ .idle := by rw [hpc]; exact nofun
    exact h.setCall (h.calls i hbusy) nofun (h.not_setNull hbusy)
  · next uses hpc =>
    cases hs
    have hbusy : s.calls i ≠ .idle := by rw [hpc]; exact nofun
    refine h.setCall (h.calls i hbusy) ?_ (h.not_setNull hbusy)
    intro p n hp
    cases hp
    exact h.calls i hbusy
  · next p uses hpc =>
    cases hs
    have hbusy : s.calls i ≠ .idle := by rw [hpc]; exact nofun
    rw [deref_of_live (h.loaded i p uses hpc)]
    refine h.setCall (h.calls i hbusy) ?_ (h.not_setNull hbusy)
    intro q n hq
    split at hq <;> cases hq

/-- An observability call that passes its test of `g_initialised`. -/
private theorem Inv.passTest (h : s.Inv) {i : ι} {out : Bool} {pc : ObservabilityPc}
    (hpc : ∀ p uses, pc ≠ .deref p uses) :
    (if s.initialised && out then s.setCall i pc else s).Inv := by
  split
  · next hpass =>
    have hinitialised := (Bool.and_eq_true _ _ ▸ hpass).1
    refine h.setCall (h.initialised hinitialised) (fun p uses hp ↦ absurd hp (hpc p uses)) ?_
    intro hl
    have hat := h.lifecycle
    rw [hl] at hat
    rw [hat.1] at hinitialised
    cases hinitialised
  · exact h

/-- Every step that meets the condition keeps the invariant. -/
private theorem Inv.step (h : s.Inv) {l : GlobalsLabel ι} (hquiet : s.Quiescent l)
    (hs : s.step l = some t) : t.Inv := by
  cases l with
  | init =>
    rw [Globals.step] at hs
    split at hs
    · cases hs
      split
      · exact h
      · next hoff => exact h.moveLifecycle (Bool.eq_false_of_not_eq_true hoff)
    · cases hs
  | shutdown =>
    rw [Globals.step] at hs
    split at hs
    · cases hs
      split
      · next hon => exact h.moveLifecycle (h.initialised hon)
      · exact h
    · cases hs
  | lifecycle present throws => exact h.stepLifecycle hquiet hs
  | metrics i out =>
    rw [Globals.step] at hs
    split at hs
    · cases hs
      exact h.passTest nofun
    · cases hs
  | health i out =>
    rw [Globals.step] at hs
    split at hs
    · cases hs
      exact h.passTest nofun
    · cases hs
  | call i => exact h.stepCall hs

end Globals

/-- No step dereferences a null or deleted engine, as long as `esccore_shutdown` deletes it only
while no observability call is past its test of `g_initialised`. -/
theorem engine_never_missing (ι : Type v) [DecidableEq ι] {s : Globals ι}
    (h : (globals ι).ReachableWith Globals.Quiescent s) : s.faults = [] := by
  have hinv : s.Inv := by
    refine Machine.ReachableWith.invariant ?_ (fun _ _ _ hi hg hs ↦ hi.step hg hs) h
    exact ⟨nofun, nofun, fun i hi ↦ absurd rfl hi, nofun, trivial, rfl⟩
  exact hinv.faults

/-- A call of `esccore_metrics` that begins before a shutdown and ends before the delete, and one
that comes after it. -/
theorem engine_never_missing_restarted :
    ∃ s, (globals Bool).ReachableWith Globals.Quiescent s ∧ s.deleted = [0] ∧
      s.engine = some 1 ∧ s.calls true = .deref (some 1) 1 ∧ s.faults = [] := by
  let next : GlobalsLabel Bool := .lifecycle false false
  have hrun : ((globals Bool).runWith Globals.Quiescent (globals Bool).start
      (List.flatten [
        [.init, next, next, next, .metrics true true, .call true, .shutdown, next, next],
        List.replicate 7 (.call true), List.replicate 11 next, [.health true true],
        [.init, next, next, next, .health true true, .call true, .call true]])).map
      (fun s ↦ (s.deleted, s.engine, s.calls true)) =
        some ([0], some 1, .deref (some 1) 1) := by
    decide +kernel
  obtain ⟨s, hrun, hs⟩ := Option.map_eq_some_iff.mp hrun
  simp only [Prod.mk.injEq] at hs
  have hreach := Machine.ReachableWith.run .start hrun
  exact ⟨s, hreach, hs.1, hs.2.1, hs.2.2, engine_never_missing Bool hreach⟩

/-- A whole shutdown between the test of `g_initialised` in `esccore_health` and its use of
`g_engine`. -/
theorem health_dereferences_null :
    ∃ s, (globals Bool).Reachable s ∧ s.faults = [none] := by
  let next : GlobalsLabel Bool := .lifecycle false false
  have hrun : ((globals Bool).run (globals Bool).start
      (List.flatten [[.init, next, next, next, .health true true, .call true, .shutdown],
        List.replicate 13 next, [.call true, .call true]])).map (fun s ↦ s.faults) =
        some [none] := by
    decide +kernel
  obtain ⟨s, hrun, hs⟩ := Option.map_eq_some_iff.mp hrun
  exact ⟨s, Machine.Reachable.run .start hrun, hs⟩

end EventStreamCore.Bridge
