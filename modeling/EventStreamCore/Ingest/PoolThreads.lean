import EventStreamCore.Ingest.Pool

/-!
# The threads on the ingest event pool

Every interleaving of the threads that acquire events, give them back and shut the pool down,
`include/eventstream/core/ingest/pool.hpp:22–154`.
-/

namespace EventStreamCore.Ingest
open EventStreamCore.Lib EventStreamCore.Events

namespace PoolThreads

variable {s t : PoolThreads} {k e : Nat} {stage : Stage}

/-- What each step can do, with what it has found. -/
inductive Moves (s : PoolThreads) : PoolStep → PoolThreads → Prop where
  | initializeStart (hc : s.lifecycle = .never ∨ s.lifecycle = .down) :
      Moves s .initializeStart
        { s with lifecycle := .initializing 0, store.shutdownFlag := false }
  | initializePush (node pushed : Nat) (hc : s.lifecycle = .initializing pushed)
      (hroom : pushed < IngestEventPool.kPoolCapacity) (hnone : s.store.heap node = none) :
      Moves s (.initializePush node)
        { s with
          lifecycle := .initializing (pushed + 1)
          store := (s.store.assign node Event.initial).push node }
  | initializeEnd (hc : s.lifecycle = .initializing IngestEventPool.kPoolCapacity) :
      Moves s .initializeEnd { s with lifecycle := .up }
  | shutdownStart (hc : s.lifecycle = .up) :
      Moves s .shutdownStart { s with lifecycle := .shuttingDown, store.shutdownFlag := true }
  | shutdownLock (hc : s.lifecycle = .shuttingDown) :
      Moves s .shutdownLock { s with lifecycle := .clearing }
  | shutdownPop (e : Nat) (store : IngestEventPool) (hc : s.lifecycle = .clearing)
      (hpop : s.store.pop = some (e, store)) :
      Moves s .shutdownPop { s with store := store.delete e }
  | shutdownEnd (hc : s.lifecycle = .clearing) (hempty : s.store.pool = []) :
      Moves s .shutdownEnd { s with lifecycle := .down }
  | acquirePooled (e : Nat) (store : IngestEventPool) (hc : s.lifecycle.unlocked)
      (hnever : s.lifecycle ≠ .never) (hpop : s.store.pop = some (e, store)) :
      Moves s .acquireEvent (s.handOut e store)
  | acquireEmpty (hnever : s.lifecycle ≠ .never) :
      Moves s .acquireEvent { s with allocating := s.allocating + 1 }
  | acquireNew (node : Nat) (hcalls : s.allocating ≠ 0) (hnone : s.store.heap node = none) :
      Moves s (.acquireNew node)
        { s.handOut node (s.store.assign node Event.initial) with
          allocating := s.allocating - 1 }
  | write (k e : Nat) (event : Event) (hk : s.handedOut k = some (e, .held)) :
      Moves s (.write k event) { s with store := s.store.assign e event }
  | releaseDown (k e : Nat) (hk : s.handedOut k = some (e, .held)) :
      Moves s (.release k) (s.finish k (s.store.delete e) .deleted)
  | releaseUp (k e : Nat) (hk : s.handedOut k = some (e, .held)) :
      Moves s (.release k) (s.setStage k e .resetting)
  | reset (k e : Nat) (hk : s.handedOut k = some (e, .resetting)) :
      Moves s (.reset k)
        { s.setStage k e .returning with store := s.store.assign e Event.initial }
  | giveBack (k e : Nat) (hk : s.handedOut k = some (e, .returning))
      (hc : s.lifecycle.unlocked) :
      Moves s (.giveBack k) (s.finish k (s.store.giveBack e).1 (s.store.giveBack e).2)

theorem moves_of_step {l : PoolStep} (hs : s.step l = some t) : Moves s l t := by
  cases l with
  | initializePush node =>
    simp only [PoolThreads.step] at hs
    split at hs
    · next pushed hc =>
      split at hs
      · next hroom =>
        obtain ⟨store, hnew, rfl⟩ := Option.map_eq_some_iff.mp hs
        obtain ⟨hnone, rfl⟩ := IngestEventPool.newEvent_eq_some hnew
        exact .initializePush node pushed hc hroom hnone
      · cases hs
    · cases hs
  | shutdownPop =>
    simp only [PoolThreads.step] at hs
    split at hs
    · next hc =>
      obtain ⟨⟨e, store⟩, hpop, rfl⟩ := Option.map_eq_some_iff.mp hs
      exact .shutdownPop e store hc hpop
    · cases hs
  | shutdownEnd =>
    simp only [PoolThreads.step] at hs
    split at hs
    · next hc =>
      cases hs
      exact .shutdownEnd hc.1 hc.2
    · cases hs
  | acquireEvent =>
    simp only [PoolThreads.step] at hs
    split at hs
    · next hc =>
      split at hs
      · next e store hpop =>
        cases hs
        exact .acquirePooled e store hc.1 hc.2 hpop
      · cases hs
        exact .acquireEmpty hc.2
    · cases hs
  | acquireNew node =>
    simp only [PoolThreads.step] at hs
    split at hs
    · cases hs
    · next hcalls =>
      obtain ⟨store, hnew, rfl⟩ := Option.map_eq_some_iff.mp hs
      obtain ⟨hnone, rfl⟩ := IngestEventPool.newEvent_eq_some hnew
      exact .acquireNew node hcalls hnone
  | write k event =>
    simp only [PoolThreads.step] at hs
    split at hs
    · next e hk =>
      cases hs
      exact .write k e event hk
    · cases hs
  | release k =>
    simp only [PoolThreads.step] at hs
    split at hs
    · next e hk =>
      split at hs
      · cases hs
        exact .releaseDown k e hk
      · cases hs
        exact .releaseUp k e hk
    · cases hs
  | reset k =>
    simp only [PoolThreads.step] at hs
    split at hs
    · next e hk =>
      cases hs
      exact .reset k e hk
    · cases hs
  | giveBack k =>
    simp only [PoolThreads.step] at hs
    split at hs
    · next e hk =>
      split at hs
      · next hc =>
        cases hs
        exact .giveBack k e hk hc
      · cases hs
    · cases hs
  | initializeStart | initializeEnd | shutdownStart | shutdownLock =>
    simp only [PoolThreads.step] at hs
    split at hs
    · next hc =>
      cases hs
      constructor
      exact hc
    · cases hs

/-- Each event handed out is in the hands of its holder or deleter, or was pooled or deleted by
it, once. -/
def Settled (s : PoolThreads) : Prop :=
  ∀ k, (s.fates k).length + (s.handedOut k).toList.length = if k < s.acquired then 1 else 0

theorem Settled.handOut (h : Settled s) (store : IngestEventPool) :
    Settled (s.handOut e store) := by
  intro k
  have hk := h k
  by_cases hne : k = s.acquired
  · subst hne
    rw [if_neg (Nat.lt_irrefl _)] at hk
    have hfates : (s.fates s.acquired).length = 0 := by omega
    simp [PoolThreads.handOut, hfates]
  · simp only [PoolThreads.handOut, Function.update_of_ne hne, hk]
    exact if_congr (by omega) rfl rfl

theorem Settled.setStage (h : Settled s) (hk : s.handedOut k = some (e, stage))
    (stage' : Stage) : Settled (s.setStage k e stage') := by
  intro j
  have hj := h j
  by_cases hjk : j = k
  · subst hjk
    rw [hk] at hj
    simp only [PoolThreads.setStage, Function.update_self]
    exact hj
  · simp only [PoolThreads.setStage, Function.update_of_ne hjk]
    exact hj

theorem Settled.finish (h : Settled s) (hk : s.handedOut k = some (e, stage))
    (store : IngestEventPool) (fate : Fate) : Settled (s.finish k store fate) := by
  intro j
  have hj := h j
  by_cases hjk : j = k
  · subst hjk
    rw [hk] at hj
    simp only [PoolThreads.finish, Function.update_self, List.length_append]
    exact hj
  · simp only [PoolThreads.finish, Function.update_of_ne hjk]
    exact hj

/-- An event still in hand was handed out and has no fate yet. -/
theorem Settled.in_hand (h : Settled s) (hk : s.handedOut k = some (e, stage)) :
    k < s.acquired ∧ s.fates k = [] := by
  have hone := h k
  rw [hk] at hone
  simp only [Option.toList_some, List.length_singleton] at hone
  split at hone
  · next hlt => exact ⟨hlt, List.length_eq_zero_iff.mp (by omega)⟩
  · omega

/-- The events are where they may be, and every deleter runs once. -/
structure Inv (s : PoolThreads) : Prop where
  idle : s.lifecycle = .never → s = initial
  owned : s.store.Owned s.handedOut
  phased : s.store.Phased s.lifecycle
  settled : s.Settled

theorem inv_initial : Inv initial where
  idle _ := rfl
  owned := by
    refine ⟨List.nodup_nil, ?_, ?_, ?_, ?_, ?_⟩
    · exact fun e he ↦ absurd he List.not_mem_nil
    all_goals intros; contradiction
  phased := by
    refine ⟨Nat.zero_le _, fun _ ↦ rfl, ?_, ?_⟩
    · exact fun n hc ↦ nomatch hc
    · rintro (hc | hc | hc) <;> cases hc
  settled _ := rfl

/-- While something is handed out, `initialize` has been called. -/
theorem Inv.started (h : Inv s) (hk : s.handedOut k = some (e, stage)) :
    s.lifecycle ≠ .never := by
  intro hnever
  rw [h.idle hnever] at hk
  cases hk

/-- Every step keeps the pool in order. -/
theorem Inv.step {l : PoolStep} (h : Inv s) (hs : s.step l = some t) : Inv t := by
  cases moves_of_step hs with
  | initializeStart hc =>
    have hempty := h.phased.empty hc
    refine ⟨nofun, h.owned.congr rfl rfl, ⟨h.phased.length_le, fun _ ↦ hempty, ?_, ?_⟩,
      h.settled⟩
    · rintro n hn
      cases hn
      exact List.length_eq_zero_iff.mpr hempty
    · rintro (hc | hc | hc) <;> cases hc
  | initializePush node pushed hc hroom hnone =>
    obtain ⟨hpool, hout⟩ := h.owned.fresh hnone
    have hpushed : (s.store.pool ++ [node]).length = pushed + 1 := by
      rw [List.length_append, h.phased.pushed pushed hc, List.length_singleton]
    refine ⟨nofun, ?_, ⟨?_, ?_, ?_, ?_⟩, h.settled⟩
    · exact (h.owned.assign hpool fun k ↦ hout k _).push hpool hout (Function.update_self _ _ _)
    · exact Nat.le_trans (Nat.le_of_eq hpushed) hroom
    · rintro (hc | hc) <;> cases hc
    · rintro n hn
      cases hn
      exact hpushed
    · rintro (hc | hc | hc) <;> cases hc
  | initializeEnd hc =>
    refine ⟨nofun, h.owned, ⟨h.phased.length_le, ?_, nofun, ?_⟩, h.settled⟩
    · rintro (hc | hc) <;> cases hc
    · rintro (hc | hc | hc) <;> cases hc
  | shutdownStart hc =>
    refine ⟨nofun, h.owned.congr rfl rfl, ⟨h.phased.length_le, ?_, nofun, fun _ ↦ rfl⟩,
      h.settled⟩
    rintro (hc | hc) <;> cases hc
  | shutdownLock hc =>
    refine ⟨nofun, h.owned, ⟨h.phased.length_le, ?_, nofun, ?_⟩, h.settled⟩
    · rintro (hc | hc) <;> cases hc
    · exact fun _ ↦ h.phased.flag (.inl hc)
  | shutdownPop e store hc hpop =>
    obtain ⟨howned, hpool, hout, -⟩ := h.owned.pop hpop
    have hphased := h.phased.pop (fun n hn ↦ nomatch hc.symm.trans hn) hpop
    refine ⟨fun hn ↦ ?_, howned.delete hpool hout, hphased.congr rfl rfl, h.settled⟩
    cases hc.symm.trans hn
  | shutdownEnd hc hempty =>
    refine ⟨nofun, h.owned, ⟨h.phased.length_le, fun _ ↦ hempty, nofun, ?_⟩, h.settled⟩
    exact fun _ ↦ h.phased.flag (.inr (.inl hc))
  | acquirePooled e store hc hnever hpop =>
    obtain ⟨howned, hpool, hout, hclean⟩ := h.owned.pop hpop
    refine ⟨fun hn ↦ absurd hn hnever, ?_, h.phased.pop ?_ hpop, h.settled.handOut _⟩
    · exact howned.hold hpool (fun j st hj ↦ absurd hj (hout j st)) ⟨_, hclean⟩ nofun
    · exact fun n hn ↦ nomatch hn ▸ hc
  | acquireEmpty hnever => exact ⟨fun hn ↦ absurd hn hnever, h.owned, h.phased, h.settled⟩
  | acquireNew node hcalls hnone =>
    obtain ⟨hpool, hout⟩ := h.owned.fresh hnone
    have hassigned : IngestEventPool.Owned (s.store.assign node Event.initial) s.handedOut :=
      h.owned.assign hpool fun k ↦ hout k _
    have hsettled := h.settled.handOut (e := node) (s.store.assign node Event.initial)
    refine ⟨fun hn ↦ ?_, ?_, h.phased.congr rfl rfl, hsettled⟩
    · exact absurd (congrArg PoolThreads.allocating (h.idle hn)) hcalls
    · exact hassigned.hold hpool (fun j st hj ↦ absurd hj (hout j st))
        ⟨_, Function.update_self _ _ _⟩ nofun
  | write k e event hk =>
    refine ⟨fun hn ↦ absurd hn (h.started hk), ?_, h.phased.congr rfl rfl, h.settled⟩
    exact h.owned.assign (h.owned.apart k e _ hk) (h.owned.not_returning hk nofun)
  | releaseDown k e hk =>
    obtain ⟨howned, hpool, hout⟩ := h.owned.drop hk
    exact ⟨fun hn ↦ absurd hn (h.started hk), howned.delete hpool hout,
      h.phased.congr rfl rfl, h.settled.finish hk _ _⟩
  | releaseUp k e hk =>
    refine ⟨fun hn ↦ absurd hn (h.started hk), ?_, h.phased, h.settled.setStage hk _⟩
    exact h.owned.hold (h.owned.apart k e _ hk) (fun j _ hj ↦ h.owned.own j k e _ _ hj hk)
      (h.owned.live k e _ hk) nofun
  | reset k e hk =>
    have hapart := h.owned.apart k e _ hk
    have hassigned : IngestEventPool.Owned (s.store.assign e Event.initial) s.handedOut :=
      h.owned.assign hapart (h.owned.not_returning hk nofun)
    refine ⟨fun hn ↦ absurd hn (h.started hk), ?_, h.phased.congr rfl rfl,
      h.settled.setStage hk _⟩
    exact hassigned.hold hapart (fun j _ hj ↦ h.owned.own j k e _ _ hj hk)
      ⟨_, Function.update_self _ _ _⟩ fun _ ↦ Function.update_self _ _ _
  | giveBack k e hk hc =>
    obtain ⟨howned, hpool, hout⟩ := h.owned.drop hk
    have hnever := h.started hk
    refine ⟨fun hn ↦ absurd hn hnever, ?_, h.phased.giveBack hc hnever, h.settled.finish hk _ _⟩
    rcases s.store.giveBack_cases e with hback | hback
    · simp only [PoolThreads.finish, hback]
      exact howned.delete hpool hout
    · simp only [PoolThreads.finish, hback]
      exact howned.push hpool hout (h.owned.returning k e hk)

/-- Every reachable state is in order. -/
theorem Inv.of_reachable (h : machine.Reachable s) : Inv s :=
  h.invariant inv_initial fun _ _ _ hi hs ↦ hi.step hs

/-- What a step does to the events that leave and enter the hands of the callers: nothing, or it
hands out one clean event, or it ends the deleter of one event, which is then in the pool or no
longer in memory. -/
inductive Outcome (s t : PoolThreads) : Prop where
  | internal (acquired : t.acquired = s.acquired) (fates : t.fates = s.fates)
  | handsOut (e : Nat) (acquired : t.acquired = s.acquired + 1) (fates : t.fates = s.fates)
      (held : t.handedOut s.acquired = some (e, .held))
      (clean : t.store.heap e = some Event.initial)
  | pools (k e : Nat) (stage : Stage) (was : s.handedOut k = some (e, stage))
      (acquired : t.acquired = s.acquired)
      (fates : t.fates = Function.update s.fates k [.pooled]) (mem : e ∈ t.store.pool)
  | deletes (k e : Nat) (stage : Stage) (was : s.handedOut k = some (e, stage))
      (acquired : t.acquired = s.acquired)
      (fates : t.fates = Function.update s.fates k [.deleted]) (gone : t.store.heap e = none)

theorem Inv.outcome {l : PoolStep} (h : Inv s) (hs : s.step l = some t) : Outcome s t := by
  cases moves_of_step hs with
  | acquirePooled e store hc hnever hpop =>
    exact .handsOut e rfl rfl (Function.update_self _ _ _) (h.owned.pop hpop).2.2.2
  | acquireNew node hcalls hnone =>
    exact .handsOut node rfl rfl (Function.update_self _ _ _) (Function.update_self _ _ _)
  | releaseDown k e hk =>
    refine .deletes k e _ hk rfl ?_ (Function.update_self _ _ _)
    rw [PoolThreads.finish, (h.settled.in_hand hk).2, List.nil_append]
  | giveBack k e hk hc =>
    have hfates := (h.settled.in_hand hk).2
    rcases s.store.giveBack_cases e with hback | hback <;>
      rw [PoolThreads.finish, hback, hfates, List.nil_append]
    · exact .deletes k e _ hk rfl rfl (Function.update_self _ _ _)
    · exact .pools k e _ hk rfl rfl (List.mem_append_right _ (List.mem_singleton_self e))
  | _ => exact .internal rfl rfl

/-- The deleter of a released event runs to its end whenever the mutex is free. -/
theorem exists_run_settled (hk : s.handedOut k = some (e, stage)) (hstage : stage ≠ .held)
    (hc : s.lifecycle.unlocked) :
    ∃ ls t, machine.run s ls = some t ∧ t.handedOut k = none := by
  have hback : ∀ r : PoolThreads, r.lifecycle.unlocked → r.handedOut k = some (e, .returning) →
      ∃ t, r.step (.giveBack k) = some t ∧ t.handedOut k = none := by
    intro r hr hrk
    refine ⟨r.finish k (r.store.giveBack e).1 (r.store.giveBack e).2, ?_,
      Function.update_self _ _ _⟩
    simp only [PoolThreads.step, hrk, hr, if_true]
  cases stage with
  | held => exact absurd rfl hstage
  | returning =>
    obtain ⟨t, ht, hnone⟩ := hback s hc hk
    exact ⟨[.giveBack k], t, Machine.run_cons_of_step ht _, hnone⟩
  | resetting =>
    have hreset : s.step (.reset k) =
        some { s.setStage k e .returning with store := s.store.assign e Event.initial } := by
      simp only [PoolThreads.step, hk]
    obtain ⟨t, ht, hnone⟩ := hback { s.setStage k e .returning with
      store := s.store.assign e Event.initial } hc (Function.update_self _ _ _)
    exact ⟨[.reset k, .giveBack k], t,
      (Machine.run_cons_of_step hreset _).trans (Machine.run_cons_of_step ht _), hnone⟩

/-- In every interleaving the pool fits its capacity, its events are clean, distinct and not in
anybody's hands, what is in hand is in memory and in one pair of hands, every event handed out is
clean, and every event handed out is still in hand or was pooled or deleted once; and after a
`shutdown` the pool is empty. -/
theorem pool_owned (h : machine.Reachable s) :
    (s.store.pool.length ≤ IngestEventPool.kPoolCapacity ∧ s.store.pool.Nodup ∧
      ∀ e ∈ s.store.pool, s.store.heap e = some Event.initial) ∧
    (∀ k e stage, s.handedOut k = some (e, stage) →
      e ∉ s.store.pool ∧ (∃ event, s.store.heap e = some event) ∧
      ∀ j stage', s.handedOut j = some (e, stage') → j = k) ∧
    (∀ k, (s.fates k).length + (s.handedOut k).toList.length = if k < s.acquired then 1 else 0) ∧
    (∀ l t, s.step l = some t → Outcome s t) ∧
    (∀ k e stage, s.handedOut k = some (e, stage) → stage ≠ .held → s.lifecycle.unlocked →
      ∃ ls t, machine.run s ls = some t ∧ t.handedOut k = none) ∧
    (s.lifecycle = .down → s.store.pool = []) := by
  have hi : Inv s := .of_reachable h
  refine ⟨⟨hi.phased.length_le, hi.owned.nodup, hi.owned.clean⟩, ?_, hi.settled,
    fun l t ht ↦ hi.outcome ht, fun k e stage ↦ exists_run_settled, fun hc ↦ ?_⟩
  · intro k e stage hk
    exact ⟨hi.owned.apart k e stage hk, hi.owned.live k e stage hk,
      fun j stage' hj ↦ hi.owned.own j k e _ _ hj hk⟩
  · exact hi.phased.empty (.inr hc)

/-- The pool with clean events at the given addresses and nothing handed out. -/
def filled (pool : List Nat) (c : Lifecycle) : PoolThreads :=
  { initial with
    store := ⟨fun a ↦ if a ∈ pool then some Event.initial else none, pool, false⟩
    lifecycle := c }

/-- The first call of `initialize` fills the pool event by event. -/
theorem reachable_filled {n : Nat} (hn : n ≤ IngestEventPool.kPoolCapacity) :
    machine.Reachable (filled (List.range n) (.initializing n)) := by
  induction n with
  | zero => exact .next (l := .initializeStart) .start True.intro rfl
  | succ n ih =>
    have hpush : (filled (List.range n) (.initializing n)).step (.initializePush n) =
        some (filled (List.range (n + 1)) (.initializing (n + 1))) := by
      have hnone : (filled (List.range n) (.initializing n)).store.heap n = none :=
        if_neg fun hm ↦ Nat.lt_irrefl n (List.mem_range.mp hm)
      have hheap : Function.update (filled (List.range n) (.initializing n)).store.heap n
          (some Event.initial) =
            (filled (List.range (n + 1)) (.initializing (n + 1))).store.heap := by
        funext a
        simp only [Function.update_apply, filled, List.range_succ, List.mem_append,
          List.mem_singleton]
        by_cases ha : a = n <;> simp [ha]
      simp only [PoolThreads.step, IngestEventPool.newEvent, hnone, hheap]
      simp only [filled, Nat.lt_of_succ_le hn, if_true, IngestEventPool.push, Option.map_some,
        List.range_succ]
    exact (ih (Nat.le_of_succ_le hn)).step (l := .initializePush n) hpush

/-- An event released before a `shutdown` and reset after it began. -/
theorem pool_owned_straddling : ∃ s, machine.Reachable s ∧ s.lifecycle = .shuttingDown ∧
    s.handedOut 0 = some (0, .returning) ∧ 0 ∉ s.store.pool ∧
    s.store.pool.length ≤ IngestEventPool.kPoolCapacity := by
  have hup : machine.Reachable (filled (0 :: (List.range 9999).map Nat.succ) .up) := by
    have hfull : machine.Reachable (filled (List.range (9999 + 1)) (.initializing (9999 + 1))) :=
      reachable_filled (Nat.le_refl _)
    rw [List.range_succ_eq_map] at hfull
    exact hfull.step (l := .initializeEnd) rfl
  have hrun : ∀ rest, machine.run (filled (0 :: rest) .up)
      [.acquireEvent, .release 0, .shutdownStart, .reset 0] = some _ := fun _ ↦ rfl
  have howned := pool_owned (hup.run (hrun _))
  refine ⟨_, hup.run (hrun _), rfl, rfl, ?_, howned.1.1⟩
  exact (howned.2.1 0 0 .returning rfl).1

end PoolThreads
end EventStreamCore.Ingest
