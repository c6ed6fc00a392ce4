import EventStreamCore.Queues.DedupMemory
import EventStreamCore.Queues.DedupSteps

/-!
# Addresses and entries of the deduplication table

How the memory of `dedup.cpp:6–155` holds the table whose pointers are entries: every entry that
a thread may still use is at its address, and different ones have different addresses. What is
written to the memory, allocated and freed is what happens to the table.
-/

namespace EventStreamCore.Queues.DedupThreads
open EventStreamCore.Lib

universe u

variable {τ : Type u} {n : Nat}

/-- The entries an insert holds, by their addresses. -/
def InsertPc.map (address : Nat → Nat) : InsertPc → InsertPc
  | .idle => .idle
  | .loadHead node retryCount => .loadHead (address node) retryCount
  | .walk node retryCount head curr =>
    .walk (address node) retryCount (head.map address) (address curr)
  | .writeNext node retryCount head => .writeNext (address node) retryCount (head.map address)
  | .casHead node retryCount head => .casHead (address node) retryCount (head.map address)

/-- The entries the cleanup holds, by their addresses. -/
def CleanerPc.map (address : Nat → Nat) : CleanerPc n → CleanerPc n
  | .idle => .idle
  | .loadHead nowMs i => .loadHead nowMs i
  | .readHeadNext nowMs i head headRetries => .readHeadNext nowMs i (address head) headRetries
  | .casHead nowMs i head next headRetries =>
    .casHead nowMs i (address head) (next.map address) headRetries
  | .readFirst nowMs i prev => .readFirst nowMs i (address prev)
  | .readNext nowMs i prev curr => .readNext nowMs i (address prev) (address curr)
  | .unlink nowMs i prev curr next =>
    .unlink nowMs i (address prev) (address curr) (next.map address)

/-- A thread is idle by addresses when it is idle. -/
theorem InsertPc.map_eq_idle {address : Nat → Nat} {pc : InsertPc} (h : pc.map address = .idle) :
    pc = .idle := by
  cases pc with
  | idle => rfl
  | loadHead node retryCount => cases h
  | walk node retryCount head curr => cases h
  | writeNext node retryCount head => cases h
  | casHead node retryCount head => cases h

/-- The cleanup is idle by addresses when it is idle. -/
theorem CleanerPc.map_eq_idle {address : Nat → Nat} {pc : CleanerPc n}
    (h : pc.map address = .idle) : pc = .idle := by
  cases pc with
  | idle => rfl
  | loadHead nowMs i => cases h
  | readHeadNext nowMs i head headRetries => cases h
  | casHead nowMs i head next headRetries => cases h
  | readFirst nowMs i prev => cases h
  | readNext nowMs i prev curr => cases h
  | unlink nowMs i prev curr next => cases h

/-- The head an insert has loaded and compares with. -/
def InsertPc.loads (head : Option Nat) : InsertPc → Prop
  | .idle => False
  | .loadHead _ _ => False
  | .walk _ _ h _ => h = head
  | .writeNext _ _ h => h = head
  | .casHead _ _ h => h = head

/-- The entry of the chain an insert stands at. -/
def InsertPc.standsAt (curr : Nat) : InsertPc → Prop
  | .idle => False
  | .loadHead _ _ => False
  | .walk _ _ _ c => c = curr
  | .writeNext _ _ _ => False
  | .casHead _ _ _ => False

/-- An insert that stands at an entry walks. -/
theorem InsertPc.exists_walk {pc : InsertPc} {curr : Nat} (h : pc.standsAt curr) :
    ∃ node retryCount head, pc = .walk node retryCount head curr := by
  cases pc with
  | walk node retryCount head a =>
    cases h
    exact ⟨node, retryCount, head, rfl⟩
  | idle => exact h.elim
  | loadHead node retryCount => exact h.elim
  | writeNext node retryCount head => exact h.elim
  | casHead node retryCount head => exact h.elim

/-- The last entry allocated at the address of a call is the call's. -/
def Memory.Current (address : Nat → Nat) (c : Memory τ n) (k : Nat) : Prop :=
  k < c.calls ∧ c.cell (address k) = k

/-- The entry of a call is at its address and has not been freed. -/
def Memory.Live (address : Nat → Nat) (c : Memory τ n) (k : Nat) : Prop :=
  c.Current address k ∧ c.inUse (address k) = true

/-- What the memory still holds for an insert: the head it loaded, its own entry, and the
entries ahead of it. -/
structure Backed (current live : Nat → Prop) (next : Nat → Option Nat) (loaded : Option Nat)
    (pc : InsertPc) : Prop where
  loaded : ∀ head, pc.loads head → loaded = head
  owned : ∀ k, pc.owns k → live k
  ahead : ∀ curr, pc.standsAt curr → ∃ w, Linked next (some curr) w ∧ ∀ x ∈ w, current x

/-- The memory holds the table, each entry at its address. -/
structure Agree (address : Nat → Nat) (c : Memory τ n) (s : State τ n) : Prop where
  calls : c.calls = s.fresh
  history : c.history = s.history
  heads : ∀ i, c.heads i = (s.heads i).map address
  next : ∀ k, c.Current address k → c.next (address k) = (s.next k).map address
  live : ∀ k, s.Published k → (∀ nowMs, .removed k nowMs ∉ s.history) → c.Live address k
  cleaner : c.cleaner = s.cleaner.map address
  inserters : ∀ t, c.inserters t = (s.inserters t).map address
  backed : ∀ t,
    Backed (c.Current address) (c.Live address) s.next (c.loaded t) (s.inserters t)

section Names

variable {address : Nat → Nat} {entry : Nat → Entry} {c : Memory τ n}

/-- Entries that are at their addresses have different addresses. -/
theorem Memory.Current.inj {j k : Nat} (hj : c.Current address j) (hk : c.Current address k)
    (h : address j = address k) : j = k := by
  rw [← hj.2, h, hk.2]

/-- What is read at the address of an entry is the entry. -/
theorem Memory.Current.read {k : Nat} (h : c.Current address k) :
    c.read entry (address k) = entry k := congrArg entry h.2

/-- The loop over the chain, by addresses. -/
theorem InsertPc.map_walkTo (node retryCount : Nat) (head curr : Option Nat) :
    (InsertPc.walkTo node retryCount head curr).map address =
      .walkTo (address node) retryCount (head.map address) (curr.map address) := by
  cases curr with
  | none => rfl
  | some a => rfl

/-- The loop over the buckets, by addresses. -/
theorem CleanerPc.map_nextBucket (nowMs : UInt64) (i : Fin n) :
    (CleanerPc.nextBucket nowMs i).map address = .nextBucket nowMs i := by
  unfold CleanerPc.nextBucket
  split
  · rfl
  · rfl

/-- Phase 1 decides by the entry at the address it reads. -/
theorem CleanerPc.map_phase1 {head : Option Nat} (h : ∀ k, head = some k → c.Current address k)
    (nowMs : UInt64) (i : Fin n) (headRetries : Nat) :
    (CleanerPc.phase1 entry nowMs i headRetries head).map address =
      .phase1 (c.read entry) nowMs i headRetries (head.map address) := by
  cases head with
  | none => exact map_nextBucket nowMs i
  | some k =>
    rw [Option.map_some]
    simp only [CleanerPc.phase1, (h k rfl).read]
    split
    · rfl
    · rfl

/-- Phase 2, by addresses. -/
theorem CleanerPc.map_phase2 (nowMs : UInt64) (i : Fin n) (prev : Nat) (curr : Option Nat) :
    (CleanerPc.phase2 nowMs i prev curr).map address =
      .phase2 nowMs i (address prev) (curr.map address) := by
  cases curr with
  | none => exact map_nextBucket nowMs i
  | some k => rfl

/-- The loop over the chain compares with the head it was given. -/
theorem InsertPc.loads_walkTo {node retryCount : Nat} {head curr : Option Nat} {p : Option Nat}
    (h : (InsertPc.walkTo node retryCount head curr).loads p) : head = p := by
  cases curr with
  | none => exact h
  | some a => exact h

/-- The loop over the chain stands at the entry it was given. -/
theorem InsertPc.standsAt_walkTo {node retryCount a : Nat} {head curr : Option Nat}
    (h : (InsertPc.walkTo node retryCount head curr).standsAt a) : curr = some a := by
  cases curr with
  | none => exact h.elim
  | some b => exact congrArg some h

end Names

section Moves

variable {address : Nat → Nat} {entry : Nat → Entry} {c : Memory τ n} {s : State τ n}
  {current live current' live' : Nat → Prop} {next next' : Nat → Option Nat}
  {loaded : Option Nat} {pc : InsertPc}

/-- What the memory holds for an insert survives the other threads. -/
theorem Backed.mono (h : Backed current live next loaded pc)
    (hlive : ∀ k, pc.owns k → live k → live' k)
    (hahead : ∀ curr w, pc.standsAt curr → Linked next (some curr) w → (∀ x ∈ w, current x) →
      ∃ w', Linked next' (some curr) w' ∧ ∀ x ∈ w', current' x) :
    Backed current' live' next' loaded pc where
  loaded := h.loaded
  owned k hk := hlive k hk (h.owned k hk)
  ahead curr hcurr := by
    obtain ⟨w, hlinked, hw⟩ := h.ahead curr hcurr
    exact hahead curr w hcurr hlinked hw

/-- An entry on a chain is at its address. -/
theorem Agree.live_of_mem [NeZero n] {chain : Fin n → List Nat} (h : Agree address c s)
    (hinv : s.Inv entry chain) {i : Fin n} {k : Nat} (hk : k ∈ chain i) : c.Live address k :=
  h.live k (hinv.published i k hk) fun nowMs hremoved ↦ (hinv.taken k nowMs hremoved).2 i hk

/-- The first entry of a chain is at its address. -/
theorem Agree.live_head [NeZero n] {chain : Fin n → List Nat} (h : Agree address c s)
    (hinv : s.Inv entry chain) {i : Fin n} {k : Nat} (hk : s.heads i = some k) :
    c.Live address k := by
  apply h.live_of_mem hinv (i := i)
  exact (hk ▸ hinv.linked i).head_mem

/-- What is ahead of an insert has been put into the table. -/
theorem State.Inv.published_ahead [NeZero n] {chain : Fin n → List Nat} (hinv : s.Inv entry chain)
    {t : τ} {curr : Nat} {w : List Nat} (hcurr : (s.inserters t).standsAt curr)
    (hw : Linked s.next (some curr) w) : ∀ x ∈ w, s.Published x := by
  have hat := hinv.inserters t
  obtain ⟨node, retryCount, head, hpc⟩ := InsertPc.exists_walk hcurr
  rw [hpc] at hat
  obtain ⟨-, ahead, hcovers⟩ := hat
  rw [hw.unique hcovers.linked]
  exact hcovers.published

/-- What is ahead of an insert it may still read. -/
theorem Agree.readable (h : Agree address c s) {t : τ} {curr : Nat} {w : List Nat}
    (hcurr : (s.inserters t).standsAt curr) (hw : Linked s.next (some curr) w)
    (hcurrent : ∀ x ∈ w, c.Current address x) : ∀ x ∈ w, c.Readable (address x) := by
  intro x hx
  obtain ⟨node, retryCount, head, hpc⟩ := InsertPc.exists_walk hcurr
  have hlinked := hw.map fun a ha ↦ h.next a (hcurrent a ha)
  have hthread := h.inserters t
  rw [hpc] at hthread
  exact ⟨t, _, _, _, _, hthread, hlinked.reflTransGen (List.mem_map_of_mem hx)⟩

/-- The cleanup moves and writes nothing. -/
theorem Agree.setCleaner (h : Agree address c s) {cleaner cleaner' : CleanerPc n}
    (hcleaner : cleaner' = cleaner.map address) :
    Agree address { c with cleaner := cleaner' } { s with cleaner := cleaner } :=
  { h with cleaner := hcleaner }

variable [DecidableEq τ] {u : τ}

/-- One insert has moved, by addresses. -/
theorem Agree.inserters_update (h : Agree address c s) (u : τ) (pc : InsertPc) (t : τ) :
    Function.update c.inserters u (pc.map address) t =
      (Function.update s.inserters u pc t).map address := by
  rw [Function.apply_update (fun _ ↦ InsertPc.map address)]
  exact congrFun (congrArg (Function.update · u _) (funext h.inserters)) t

/-- One insert has moved, and the memory holds what it holds for the others. -/
theorem Backed.update (loaded : τ → Option Nat) {loaded' : τ → Option Nat}
    {inserters : τ → InsertPc} (hloaded : ∀ t, t ≠ u → loaded' t = loaded t)
    (hu : Backed current live next (loaded' u) pc)
    (hother : ∀ t, t ≠ u → Backed current live next (loaded t) (inserters t)) (t : τ) :
    Backed current live next (loaded' t) (Function.update inserters u pc t) := by
  by_cases ht : t = u
  · rw [ht, Function.update_self]
    exact hu
  · rw [Function.update_of_ne ht, hloaded t ht]
    exact hother t ht

/-- An insert moves and writes nothing. -/
theorem Agree.move (h : Agree address c s) (pc : InsertPc) {loaded : τ → Option Nat}
    (hloaded : ∀ t, t ≠ u → loaded t = c.loaded t)
    (hu : Backed (c.Current address) (c.Live address) s.next (loaded u) pc) :
    Agree address { c.setInserter u (pc.map address) with loaded := loaded }
      (s.setInserter u pc) :=
  { h with
    inserters := h.inserters_update u pc
    backed := Backed.update c.loaded hloaded hu fun t _ ↦ h.backed t }

end Moves

section Writes

variable {address : Nat → Nat} {entry : Nat → Entry} {c : Memory τ n} {s : State τ n} {u : τ}
  {k : Nat}

/-- Freeing the address of one entry frees no other entry. -/
theorem Memory.Live.free {j : Nat} (h : c.Live address j) (hk : c.Current address k)
    (hne : j ≠ k) : (c.free (address k)).Live address j := by
  refine ⟨h.1, ?_⟩
  have haddress : address j ≠ address k := fun he ↦ hne (h.1.inj hk he)
  exact (Function.update_of_ne haddress _ _).trans h.2

/-- An entry that a running insert owns has not been put into the table. -/
theorem State.Inv.hidden_of_owns [NeZero n] {chain : Fin n → List Nat} (hinv : s.Inv entry chain)
    (hu : (s.inserters u).owns k) : s.Hidden k :=
  (hinv.inserters u).hidden hu

/-- The cleanup takes an entry out of a chain and frees it. -/
theorem Agree.remove [NeZero n] {chain : Fin n → List Nat} (h : Agree address c s)
    (hinv : s.Inv entry chain) {next next' : Nat → Option Nat} {heads heads' : Fin n → Option Nat}
    {pc pc' : CleanerPc n} {nowMs : UInt64} (hk : c.Current address k) (hpublished : s.Published k)
    (hheads : ∀ i, heads' i = (heads i).map address)
    (hnext : ∀ j, c.Current address j → next' (address j) = (next j).map address)
    (hpc : pc' = pc.map address)
    (hahead : ∀ p w, Linked s.next p w → ∃ w', Linked next p w' ∧ w' ⊆ w) :
    Agree address { c.free (address k) with
        next := next'
        heads := heads'
        cleaner := pc'
        history := c.history ++ [.removed (c.cell (address k)) nowMs] }
      (s.remove next heads pc k nowMs) := by
  refine ⟨h.calls, ?_, hheads, hnext, fun j hj hremoved ↦ ?_, hpc, h.inserters, fun t ↦ ?_⟩
  · simp only [State.remove, hk.2, h.history]
  · have hlive := h.live j ((published_remove j).mp hj) fun atMs hr ↦
      hremoved atMs (List.mem_append_left _ hr)
    apply hlive.free hk
    rintro rfl
    exact hremoved nowMs (List.mem_append_right _ List.mem_cons_self)
  · apply (h.backed t).mono
    · intro j hj hlive
      apply hlive.free hk
      rintro rfl
      exact (hinv.hidden_of_owns hj).2 hpublished
    · intro curr w _ hw hcurrent
      obtain ⟨w', hw', hsub⟩ := hahead (some curr) w hw
      exact ⟨w', hw', fun x hx ↦ hcurrent x (hsub hx)⟩

variable [DecidableEq τ]

/-- An insert puts its entry into the table. -/
theorem Agree.publish (h : Agree address c s) (hu : (s.inserters u).owns k) (i : Fin n) :
    Agree address { c.setInserter u .idle with
        heads := Function.update c.heads i (some (address k))
        history := c.history ++ [.inserted (c.cell (address k))] }
      (s.publish i k (Function.update s.inserters u .idle)) := by
  have hk := (h.backed u).owned k hu
  refine ⟨h.calls, ?_, fun j ↦ ?_, h.next, fun j hj hremoved ↦ ?_, h.cleaner,
    h.inserters_update u .idle, ?_⟩
  · simp only [State.publish, hk.1.2, h.history]
  · show Function.update c.heads i (some (address k)) j =
      (Function.update s.heads i (some k) j).map address
    by_cases hj : j = i
    · rw [hj, Function.update_self, Function.update_self, Option.map_some]
    · rw [Function.update_of_ne hj, Function.update_of_ne hj]
      exact h.heads j
  · obtain hj | rfl := (published_publish j).mp hj
    · exact h.live j hj fun nowMs hr ↦ hremoved nowMs (List.mem_append_left _ hr)
    · exact hk
  · apply Backed.update c.loaded (fun _ _ ↦ rfl)
    · exact ⟨fun _ ↦ False.elim, fun _ ↦ False.elim, fun _ ↦ False.elim⟩
    · exact fun t _ ↦ h.backed t

/-- A call of `insert` gets free memory that no other insert may still read. -/
theorem Agree.callInsert (h : Agree address c s) (hfree : c.inUse (address c.calls) = false)
    (hunread : ¬ c.Readable (address c.calls)) :
    Agree address { c.setInserter u (.loadHead (address c.calls) 0) with
        next := Function.update c.next (address c.calls) none
        cell := Function.update c.cell (address c.calls) c.calls
        inUse := Function.update c.inUse (address c.calls) true
        calls := c.calls + 1 }
      { s.setInserter u (.loadHead s.fresh 0) with
        next := Function.update s.next s.fresh none
        fresh := s.fresh + 1 } := by
  have hother : ∀ j, c.Current address j → address j ≠ address c.calls →
      (j < c.calls + 1 ∧ Function.update c.cell (address c.calls) c.calls (address j) = j) := by
    intro j hj hne
    exact ⟨Nat.lt_succ_of_lt hj.1, (Function.update_of_ne hne _ _).trans hj.2⟩
  have hlive : ∀ j, c.Live address j → address j ≠ address c.calls := by
    intro j hj he
    have hused := hj.2
    rw [he, hfree] at hused
    cases hused
  refine ⟨congrArg Nat.succ h.calls, h.history, h.heads, fun j hj ↦ ?_, fun j hj hremoved ↦ ?_,
    h.cleaner, ?_, ?_⟩
  · show Function.update c.next (address c.calls) none (address j) =
      (Function.update s.next s.fresh none j).map address
    obtain ⟨hlt, hcell⟩ := hj
    simp only at hlt hcell
    by_cases he : address j = address c.calls
    · -- the address has been given to the new call
      rw [he, Function.update_self] at hcell
      rw [he, ← hcell, h.calls, Function.update_self, Function.update_self, Option.map_none]
    · rw [Function.update_of_ne he] at hcell
      have hne : j ≠ s.fresh := fun hj ↦ he (by rw [hj, h.calls])
      rw [Function.update_of_ne he, Function.update_of_ne hne]
      exact h.next j ⟨by have := h.calls; omega, hcell⟩
  · have hj' := h.live j hj hremoved
    exact ⟨hother j hj'.1 (hlive j hj'), (Function.update_of_ne (hlive j hj') _ _).trans hj'.2⟩
  · rw [h.calls]
    exact h.inserters_update u (.loadHead s.fresh 0)
  · apply Backed.update c.loaded (fun _ _ ↦ rfl)
    · refine ⟨fun _ ↦ False.elim, fun j hj ↦ ?_, fun _ ↦ False.elim⟩
      cases hj
      refine ⟨⟨?_, ?_⟩, ?_⟩
      · exact h.calls ▸ Nat.lt_succ_self _
      · exact h.calls ▸ Function.update_self _ _ _
      · exact h.calls ▸ Function.update_self _ _ _
    · intro t ht
      apply (h.backed t).mono
      · exact fun j _ hj ↦ ⟨hother j hj.1 (hlive j hj),
          (Function.update_of_ne (hlive j hj) _ _).trans hj.2⟩
      · intro curr w hcurr hw hcurrent
        have hread := h.readable hcurr hw hcurrent
        refine ⟨w, hw.update_of_notMem (fun hmem ↦ ?_) none, fun x hx ↦ ?_⟩
        · exact Nat.lt_irrefl _ (h.calls ▸ (hcurrent _ hmem).1)
        · exact hother x (hcurrent x hx) fun he ↦ hunread (he ▸ hread x hx)

variable [NeZero n] {chain : Fin n → List Nat}

/-- An insert that returns `false` frees its entry. -/
theorem Agree.refuse (h : Agree address c s) (hinv : s.Inv entry chain)
    (hu : (s.inserters u).owns k) :
    Agree address (c.refuse u (address k))
      { s.setInserter u .idle with history := s.history ++ [.refused k] } := by
  have hk := (h.backed u).owned k hu
  have hkeep : ∀ j, c.Live address j → j ≠ k → (c.refuse u (address k)).Live address j :=
    fun j hj hne ↦ hj.free hk.1 hne
  refine ⟨h.calls, ?_, h.heads, h.next, fun j hj hremoved ↦ ?_, h.cleaner,
    h.inserters_update u .idle, ?_⟩
  · simp only [Memory.refuse, hk.1.2, h.history]
  · have hpublished : s.Published j := by
      simpa only [State.Published, List.mem_append, List.mem_singleton, reduceCtorEq, or_false]
        using hj
    apply hkeep j
    · exact h.live j hpublished fun nowMs hr ↦ hremoved nowMs (List.mem_append_left _ hr)
    · rintro rfl
      exact (hinv.hidden_of_owns hu).2 hpublished
  · apply Backed.update c.loaded (fun _ _ ↦ rfl)
    · exact ⟨fun _ ↦ False.elim, fun _ ↦ False.elim, fun _ ↦ False.elim⟩
    · intro t ht
      apply (h.backed t).mono
      · intro j hj hlive
        apply hkeep j hlive
        rintro rfl
        exact ht (hinv.owners t u j hj hu)
      · exact fun curr w _ hw hcurrent ↦ ⟨w, hw, hcurrent⟩

/-- An insert links its entry to the head it loaded. -/
theorem Agree.writeNext (h : Agree address c s) (hinv : s.Inv entry chain)
    {retryCount : Nat} {head : Option Nat} (hu : s.inserters u = .writeNext k retryCount head) :
    Agree address { c.setInserter u (.casHead (address k) retryCount (head.map address)) with
        next := Function.update c.next (address k) (head.map address) }
      { s.setInserter u (.casHead k retryCount head) with
        next := Function.update s.next k head } := by
  have howns : (s.inserters u).owns k := by
    rw [hu]
    rfl
  have hk := (h.backed u).owned k howns
  refine ⟨h.calls, h.history, h.heads, fun j hj ↦ ?_, h.live, h.cleaner,
    h.inserters_update u (.casHead k retryCount head), ?_⟩
  · show Function.update c.next (address k) (head.map address) (address j) =
      (Function.update s.next k head j).map address
    by_cases hjk : j = k
    · rw [hjk, Function.update_self, Function.update_self]
    · have haddress : address j ≠ address k := fun he ↦ hjk (Memory.Current.inj hj hk.1 he)
      rw [Function.update_of_ne hjk, Function.update_of_ne haddress]
      exact h.next j hj
  · apply Backed.update c.loaded (fun _ _ ↦ rfl)
    · refine ⟨fun p hp ↦ ?_, fun j hj ↦ ?_, fun _ ↦ False.elim⟩
      · apply (h.backed u).loaded p
        rw [hu]
        exact hp
      · cases hj
        exact hk
    · intro t ht
      apply (h.backed t).mono fun _ _ hlive ↦ hlive
      intro curr w hcurr hw hcurrent
      refine ⟨w, hw.update_of_notMem (fun hmem ↦ ?_) head, hcurrent⟩
      exact (hinv.hidden_of_owns howns).2 (hinv.published_ahead hcurr hw k hmem)

end Writes

end EventStreamCore.Queues.DedupThreads
