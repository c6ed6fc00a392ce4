/-!
# Labelled machines, guarded runs and invariants

General support, independent of any program. A machine has one start state and at
most one successor for each label, so a label carries everything the program does
not decide by itself: which thread moves, what it is asked to do, what it is given.
A guard restricts the runs under consideration by a condition on each step taken;
unguarded reachability is the special case of the trivial guard.
-/

namespace EventStreamCore.Lib

universe u v u' v'

/-- What one step of a call leaves: the point it has reached, or the value it returns. -/
inductive Progress (π : Type u) (ρ : Type v) where
  | running (pc : π)
  | returned (result : ρ)
deriving DecidableEq, Repr

/-- A machine with labelled steps; a disabled label has no successor. -/
structure Machine (σ : Type u) (ι : Type v) where
  start : σ
  step : σ → ι → Option σ

namespace Machine

variable {σ : Type u} {ι : Type v} {τ : Type u'} {κ : Type v'}

/-- Execute a list of labels from left to right, failing on the first disabled one. -/
def run (m : Machine σ ι) (s : σ) : List ι → Option σ
  | [] => some s
  | l :: ls => (m.step s l).bind fun t ↦ m.run t ls

/-- Execute a list of labels, failing also on the first step that does not meet the guard. -/
def runWith (m : Machine σ ι) (guard : σ → ι → Prop) [∀ s l, Decidable (guard s l)] (s : σ) :
    List ι → Option σ
  | [] => some s
  | l :: ls => if guard s l then (m.step s l).bind fun t ↦ m.runWith guard t ls else none

/-- The states reached from the start by steps that satisfy the guard where they are taken. -/
inductive ReachableWith (m : Machine σ ι) (guard : σ → ι → Prop) : σ → Prop where
  | start : ReachableWith m guard m.start
  | next {s t : σ} {l : ι} : ReachableWith m guard s → guard s l → m.step s l = some t →
      ReachableWith m guard t

/-- Reachability by arbitrary steps. -/
def Reachable (m : Machine σ ι) : σ → Prop := m.ReachableWith fun _ _ ↦ True

/-- A run takes its first step, then the rest. -/
theorem run_cons (m : Machine σ ι) (s : σ) (l : ι) (ls : List ι) :
    m.run s (l :: ls) = (m.step s l).bind fun t ↦ m.run t ls := rfl

/-- The first step of a run can be executed by itself. -/
theorem run_cons_of_step {m : Machine σ ι} {s t : σ} {l : ι} (h : m.step s l = some t)
    (ls : List ι) : m.run s (l :: ls) = m.run t ls := by
  rw [run_cons, h]
  rfl

/-- A run of two lists of labels is a run of the first, then of the second. -/
theorem run_append (m : Machine σ ι) (s : σ) (ls ks : List ι) :
    m.run s (ls ++ ks) = (m.run s ls).bind fun t ↦ m.run t ks := by
  induction ls generalizing s with
  | nil => rfl
  | cons l ls ih =>
    rw [List.cons_append, run_cons, run_cons]
    cases m.step s l with
    | none => rfl
    | some t => exact ih t

/-- A property of the start state that every guarded step preserves holds wherever
guarded steps lead. -/
theorem ReachableWith.invariant {m : Machine σ ι} {guard : σ → ι → Prop} {I : σ → Prop}
    (start : I m.start)
    (step : ∀ s l t, I s → guard s l → m.step s l = some t → I t)
    {s : σ} (h : m.ReachableWith guard s) : I s := by
  induction h with
  | start => exact start
  | next _ hg hs ih => exact step _ _ _ ih hg hs

/-- The invariant rule for unguarded runs. -/
theorem Reachable.invariant {m : Machine σ ι} {I : σ → Prop} (start : I m.start)
    (step : ∀ s l t, I s → m.step s l = some t → I t)
    {s : σ} (h : m.Reachable s) : I s :=
  ReachableWith.invariant start (fun s l t hi _ hs ↦ step s l t hi hs) h

/-- Guarded runs are runs. -/
theorem ReachableWith.reachable {m : Machine σ ι} {guard : σ → ι → Prop} {s : σ}
    (h : m.ReachableWith guard s) : m.Reachable s := by
  induction h with
  | start => exact .start
  | next _ _ hs ih => exact .next ih True.intro hs

/-- Where a guard leads, a weaker one leads too. -/
theorem ReachableWith.mono {m : Machine σ ι} {guard guard' : σ → ι → Prop} {s : σ}
    (hguard : ∀ s l, guard s l → guard' s l) (h : m.ReachableWith guard s) :
    m.ReachableWith guard' s := by
  induction h with
  | start => exact .start
  | next _ hg hs ih => exact .next ih (hguard _ _ hg) hs

/-- One more step stays reachable. -/
theorem Reachable.step {m : Machine σ ι} {s t : σ} {l : ι} (h : m.Reachable s)
    (hs : m.step s l = some t) : m.Reachable t := .next h True.intro hs

/-- A run from a reachable state ends in a reachable state. -/
theorem Reachable.run {m : Machine σ ι} {s t : σ} {ls : List ι} (h : m.Reachable s)
    (hr : m.run s ls = some t) : m.Reachable t := by
  induction ls generalizing s with
  | nil => exact Option.some.inj hr ▸ h
  | cons l ls ih =>
    rw [run_cons] at hr
    cases hs : m.step s l with
    | none => simp [hs] at hr
    | some r =>
      rw [hs] at hr
      exact ih (h.step hs) hr

/-- A property that every step of a kind preserves holds where a run of such steps leads. -/
theorem run_invariant {m : Machine σ ι} {I : σ → Prop} {allowed : ι → Prop}
    (step : ∀ s l t, I s → allowed l → m.step s l = some t → I t)
    {s t : σ} {ls : List ι} (hs : I s) (hls : ∀ l ∈ ls, allowed l) (hr : m.run s ls = some t) :
    I t := by
  induction ls generalizing s with
  | nil => exact Option.some.inj hr ▸ hs
  | cons l ls ih =>
    obtain ⟨r, hstep, hrest⟩ := Option.bind_eq_some_iff.mp hr
    have hl : allowed l := hls l List.mem_cons_self
    exact ih (step s l r hs hl hstep) (fun k hk ↦ hls k (List.mem_cons_of_mem l hk)) hrest

/-- A run whose every step passes the guard ends in a guarded-reachable state. -/
theorem ReachableWith.run {m : Machine σ ι} {guard : σ → ι → Prop}
    [∀ s l, Decidable (guard s l)] {s t : σ} {ls : List ι} (h : m.ReachableWith guard s)
    (hr : m.runWith guard s ls = some t) : m.ReachableWith guard t := by
  induction ls generalizing s with
  | nil => exact Option.some.inj hr ▸ h
  | cons l ls ih =>
    rw [runWith] at hr
    split at hr
    · next hg =>
      cases hs : m.step s l with
      | none => simp [hs] at hr
      | some r =>
        rw [hs] at hr
        exact ih (.next h hg hs) hr
    · cases hr

/-- A condition on every step a list of labels takes. -/
def Along (m : Machine σ ι) (P : σ → ι → Prop) : σ → List ι → Prop
  | _, [] => True
  | s, l :: ls => P s l ∧ ∀ t, m.step s l = some t → m.Along P t ls

/-- A conjunction holds along a run when both parts do. -/
theorem along_and {m : Machine σ ι} {P Q : σ → ι → Prop} {s : σ} {ls : List ι} :
    m.Along (fun s l ↦ P s l ∧ Q s l) s ls ↔ m.Along P s ls ∧ m.Along Q s ls := by
  induction ls generalizing s with
  | nil => simp only [Along, and_self]
  | cons l ls ih =>
    simp only [Along, ih]
    constructor
    · rintro ⟨⟨hp, hq⟩, hrest⟩
      exact ⟨⟨hp, fun t ht ↦ (hrest t ht).1⟩, hq, fun t ht ↦ (hrest t ht).2⟩
    · rintro ⟨⟨hp, hprest⟩, hq, hqrest⟩
      exact ⟨⟨hp, hq⟩, fun t ht ↦ ⟨hprest t ht, hqrest t ht⟩⟩

/-- The first step of a run, when it is enabled, and the condition along the rest. -/
theorem along_cons_of_step {m : Machine σ ι} {P : σ → ι → Prop} {s t : σ} {l : ι}
    {ls : List ι} (hs : m.step s l = some t) :
    m.Along P s (l :: ls) ↔ P s l ∧ m.Along P t ls := by
  simp only [Along, hs, Option.some.injEq, forall_eq']

/-- A condition that holds along a run holds at the step after any first part of it. -/
theorem Along.of_run {m : Machine σ ι} {P : σ → ι → Prop} {s t : σ} {ls ks : List ι} {l : ι}
    (h : m.Along P s (ls ++ l :: ks)) (hr : m.run s ls = some t) : P t l := by
  induction ls generalizing s with
  | nil => exact Option.some.inj hr ▸ h.1
  | cons k ls ih =>
    rw [run_cons] at hr
    cases hs : m.step s k with
    | none => simp [hs] at hr
    | some r =>
      rw [hs] at hr
      exact ih (h.2 r hs) hr

/-- Along a given list of labels, a decidable condition is decidable. -/
instance decidableAlong (m : Machine σ ι) (P : σ → ι → Prop) [∀ s l, Decidable (P s l)] (s : σ)
    (ls : List ι) : Decidable (m.Along P s ls) :=
  match ls with
  | [] => .isTrue trivial
  | l :: ls =>
    match hs : m.step s l with
    | none => decidable_of_iff (P s l) (by simp [Along, hs])
    | some t =>
      have := decidableAlong m P t ls
      decidable_of_iff (P s l ∧ m.Along P t ls) (along_cons_of_step hs).symm

/-- Two conditions that agree wherever an invariant holds agree along every run that keeps it,
and the second condition may be used to keep it. -/
theorem along_congr {m : Machine σ ι} {I : σ → Prop} {P Q : σ → ι → Prop}
    (iff : ∀ s l, I s → (P s l ↔ Q s l))
    (step : ∀ s l t, I s → Q s l → m.step s l = some t → I t)
    {s : σ} (h : I s) (ls : List ι) : m.Along P s ls ↔ m.Along Q s ls := by
  induction ls generalizing s with
  | nil => exact Iff.rfl
  | cons l ls ih =>
    constructor
    · rintro ⟨hp, hrest⟩
      have hq := (iff s l h).mp hp
      exact ⟨hq, fun t ht ↦ (ih (step s l t h hq ht)).mp (hrest t ht)⟩
    · rintro ⟨hq, hrest⟩
      exact ⟨(iff s l h).mpr hq, fun t ht ↦ (ih (step s l t h hq ht)).mpr (hrest t ht)⟩

/-- A forward simulation: every step of `m` is matched by one step of `n`, or by none. -/
structure Simulation (m : Machine σ ι) (n : Machine τ κ) where
  abs : σ → τ
  start : abs m.start = n.start
  step : ∀ s l t, m.step s l = some t → abs t = abs s ∨ ∃ k, n.step (abs s) k = some (abs t)

/-- The image of a reachable state under a simulation is reachable. -/
theorem Simulation.reachable {m : Machine σ ι} {n : Machine τ κ} (sim : Simulation m n)
    {s : σ} (h : m.Reachable s) : n.Reachable (sim.abs s) := by
  induction h with
  | start => exact sim.start ▸ .start
  | next _ _ hs ih =>
    obtain he | ⟨k, hk⟩ := sim.step _ _ _ hs
    · exact he ▸ ih
    · exact ih.step hk

end Machine
end EventStreamCore.Lib
