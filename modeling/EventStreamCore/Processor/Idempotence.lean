import EventStreamCore.Lib.Machine
import EventStreamCore.Processor.Processors
import EventStreamCore.Queues.DedupMap

/-!
# How long an id is remembered

Sequences of `TransactionalProcessor::process` calls with `pauseProcessing` and
`resumeProcessing` in between, `src/core/processor/transactional.cpp:23–107`, whose clock never
goes back. The history records every call that reached `storeEvent`. An entry of the
deduplication table leaves it only in a cleanup, and `process` runs one only on a call that has
passed the duplicate test, at most every ten seconds.
-/

namespace EventStreamCore.Processor
open EventStreamCore.Lib EventStreamCore.Events EventStreamCore.Queues EventStreamCore.Storage

/-- A call that reached `storeEvent`, and whether it then completed. -/
structure Commit where
  eventId : UInt32
  nowMs : UInt64
  succeeded : Bool
deriving DecidableEq, Repr

/-- A processor, what it writes to, the last clock reading and the history. -/
structure TxnRun where
  processor : TransactionalProcessor
  io : Sinks
  clock : UInt64
  commits : List Commit

/-- What is called next. -/
inductive TxnLabel where
  | process (c : ProcessCall)
  | pauseProcessing
  | resumeProcessing

namespace TxnRun

/-- A new processor. -/
def initial (maxRetries : Nat) (io : Sinks) : TxnRun :=
  ⟨⟨false, maxRetries, .initial, 0, .initial, .initial⟩, io, 0, []⟩

/-- A call of `process`. -/
def process (s : TxnRun) (c : ProcessCall) : TxnRun :=
  let (processor, io, outcome) := s.processor.process s.io c
  { processor, io
    clock := c.nowMs
    commits := if s.processor.stores c
      then s.commits ++ [⟨c.event.header.id, c.nowMs, outcome = .returned⟩] else s.commits }

/-- One call. -/
def step (s : TxnRun) : TxnLabel → Option TxnRun
  | .process c => some (s.process c)
  | .pauseProcessing => some { s with processor := s.processor.pauseProcessing }
  | .resumeProcessing => some { s with processor := s.processor.resumeProcessing }

/-- The clock does not go back. -/
def ClockForward (s : TxnRun) : TxnLabel → Prop
  | .process c => s.clock ≤ c.nowMs
  | .pauseProcessing => True
  | .resumeProcessing => True

instance (s : TxnRun) (l : TxnLabel) : Decidable (s.ClockForward l) :=
  match l with
  | .process c => inferInstanceAs (Decidable (s.clock ≤ c.nowMs))
  | .pauseProcessing => .isTrue trivial
  | .resumeProcessing => .isTrue trivial

end TxnRun

/-- All sequences of calls. -/
def transactions (maxRetries : Nat) (io : Sinks) : Machine TxnRun TxnLabel where
  start := TxnRun.initial maxRetries io
  step := TxnRun.step

/-- What the table remembers: exactly the calls of the history that no cleanup has found to be
older than the window. -/
structure Remembers (table : LockFreeDeduplicator defaultBuckets) (lastCleanupMs clock : UInt64)
    (commits : List Commit) : Prop where
  wf : table.Wf
  cleanup_le : lastCleanupMs ≤ clock
  commits_le : ∀ commit ∈ commits, commit.nowMs ≤ clock
  entries : ∀ id t, table.toMap id = some t → SeenMap.Live lastCleanupMs t ∧
    ∃ commit ∈ commits, commit.eventId = id ∧ commit.nowMs = t
  live : ∀ commit ∈ commits, SeenMap.Live lastCleanupMs commit.nowMs →
    table.toMap commit.eventId = some commit.nowMs

namespace Remembers

variable {table : LockFreeDeduplicator defaultBuckets} {lastCleanupMs clock nowMs : UInt64}
  {commits : List Commit} {id : UInt32}

/-- What is within the window later was within it before. -/
theorem live_of_le {t earlier later : UInt64} (hle : earlier ≤ later)
    (h : SeenMap.Live later t) : SeenMap.Live earlier t := by
  rw [UInt64.le_iff_toNat_le] at hle
  unfold SeenMap.Live at h ⊢
  rw [UInt64.le_iff_toNat_le] at h ⊢
  omega

/-- A new table has nothing to remember. -/
theorem start : Remembers .initial 0 0 [] where
  wf := LockFreeDeduplicator.wf_initial
  cleanup_le := UInt64.le_refl 0
  commits_le _ h := by cases h
  entries _ _ h := by cases h
  live _ h := by cases h

/-- Time passes. -/
theorem tick (h : Remembers table lastCleanupMs clock commits) (hle : clock ≤ nowMs) :
    Remembers table lastCleanupMs nowMs commits :=
  ⟨h.wf, UInt64.le_trans h.cleanup_le hle,
    fun commit hc ↦ UInt64.le_trans (h.commits_le commit hc) hle, h.entries, h.live⟩

/-- A cleanup forgets what it finds to be older than the window. -/
theorem cleanup (h : Remembers table lastCleanupMs clock commits) (hle : clock ≤ nowMs) :
    Remembers (table.cleanup nowMs).1 nowMs nowMs commits where
  wf := h.wf.cleanup nowMs
  cleanup_le := UInt64.le_refl nowMs
  commits_le commit hc := UInt64.le_trans (h.commits_le commit hc) hle
  entries id t ht := by
    rw [LockFreeDeduplicator.toMap_cleanup h.wf, SeenMap.cleanup, Option.filter_eq_some_iff,
      decide_eq_true_eq] at ht
    exact ⟨ht.2, (h.entries id t ht.1).2⟩
  live commit hc hlive := by
    have hbefore := live_of_le (UInt64.le_trans h.cleanup_le hle) hlive
    rw [LockFreeDeduplicator.toMap_cleanup h.wf, SeenMap.cleanup, h.live commit hc hbefore,
      Option.filter_some, decide_eq_true hlive]
    rfl

/-- Inserting an id that is not in the table adds the call to what is remembered. -/
theorem insert (h : Remembers table lastCleanupMs clock commits)
    (hnew : table.isDuplicate id = false) (hle : clock ≤ nowMs) (succeeded : Bool) :
    Remembers (table.insert id nowMs).1 lastCleanupMs nowMs
      (commits ++ [⟨id, nowMs, succeeded⟩]) := by
  have hlast : SeenMap.Live lastCleanupMs nowMs := .inl (UInt64.le_trans h.cleanup_le hle)
  have hnone : table.toMap id = none := by
    rw [LockFreeDeduplicator.isDuplicate_eq] at hnew
    exact Option.isNone_iff_eq_none.mp (by rw [← Option.not_isSome, hnew]; rfl)
  have hmap : (table.insert id nowMs).1.toMap =
      Function.update table.toMap id (some nowMs) := by
    have hinsert := congrArg Prod.fst (table.toMap_insert id nowMs)
    rw [SeenMap.insert, hnone] at hinsert
    exact hinsert
  constructor
  · exact h.wf.insert id nowMs
  · exact UInt64.le_trans h.cleanup_le hle
  · intro commit hc
    obtain hold | hnew := List.mem_append.mp hc
    · exact UInt64.le_trans (h.commits_le commit hold) hle
    · rw [List.mem_singleton.mp hnew]
      exact UInt64.le_refl nowMs
  · intro other t ht
    rw [hmap] at ht
    by_cases he : other = id
    · subst he
      rw [Function.update_self] at ht
      cases ht
      exact ⟨hlast, _, List.mem_append_right _ (List.mem_singleton_self _), rfl, rfl⟩
    · rw [Function.update_of_ne he] at ht
      obtain ⟨hlive, commit, hc, hcommit⟩ := h.entries other t ht
      exact ⟨hlive, commit, List.mem_append_left _ hc, hcommit⟩
  · intro commit hc hlive
    rw [hmap]
    obtain hold | hnew := List.mem_append.mp hc
    · have hfound := h.live commit hold hlive
      have hne : commit.eventId ≠ id := by
        intro he
        rw [he, hnone] at hfound
        cases hfound
      rw [Function.update_of_ne hne]
      exact hfound
    · rw [List.mem_singleton.mp hnew]
      exact Function.update_self ..

/-- The table knows an id exactly when it remembers a call of the history. -/
theorem isDuplicate_iff (h : Remembers table lastCleanupMs clock commits) :
    table.isDuplicate id = true ↔
      ∃ commit ∈ commits, commit.eventId = id ∧ SeenMap.Live lastCleanupMs commit.nowMs := by
  rw [LockFreeDeduplicator.isDuplicate_eq, Option.isSome_iff_exists]
  constructor
  · rintro ⟨t, ht⟩
    obtain ⟨hlive, commit, hc, hid, rfl⟩ := h.entries id t ht
    exact ⟨commit, hc, hid, hlive⟩
  · rintro ⟨commit, hc, rfl, hlive⟩
    exact ⟨_, h.live commit hc hlive⟩

end Remembers

namespace TxnRun

variable {s t : TxnRun}

/-- The processor's table remembers its history. -/
def Inv (s : TxnRun) : Prop :=
  Remembers s.processor.dedupTable s.processor.lastCleanupMs s.clock s.commits

/-- A cleanup that is due, or none. -/
private theorem Inv.maybeCleanup (h : s.Inv) {nowMs : UInt64} (hle : s.clock ≤ nowMs) :
    Remembers (s.processor.maybeCleanup nowMs).dedupTable
      (s.processor.maybeCleanup nowMs).lastCleanupMs nowMs s.commits := by
  unfold TransactionalProcessor.maybeCleanup
  split
  · exact Remembers.cleanup h hle
  · exact Remembers.tick h hle

/-- A call keeps the history in step with the table. -/
theorem Inv.process (h : s.Inv) {c : ProcessCall} (hle : s.clock ≤ c.nowMs) :
    (s.process c).Inv := by
  have hclean := h.maybeCleanup hle
  unfold Inv TxnRun.process
  obtain ⟨hstores, ⟨htable, hlast⟩ | ⟨htable, hlast⟩⟩ | ⟨hstores, hnew, htable, hlast⟩ :=
    s.processor.process_table s.io c
  · simp only [htable, hlast, hstores, Bool.false_eq_true, if_false]
    exact Remembers.tick h hle
  · simp only [htable, hlast, hstores, Bool.false_eq_true, if_false]
    exact hclean
  · simp only [htable, hlast, hstores, if_true]
    apply hclean.insert _ (UInt64.le_refl c.nowMs)
    have hdup : s.processor.dedupTable.isDuplicate c.event.header.id = false := by
      cases hd : s.processor.dedupTable.isDuplicate c.event.header.id with
      | false => rfl
      | true => simp [TransactionalProcessor.stores, hd] at hstores
    unfold TransactionalProcessor.maybeCleanup
    split
    · rw [Bool.eq_false_iff]
      intro hd
      rw [LockFreeDeduplicator.isDuplicate_of_cleanup hd] at hdup
      cases hdup
    · exact hdup

/-- One call, whatever it is. -/
theorem Inv.step {l : TxnLabel} (h : s.Inv) (hl : s.ClockForward l) (ht : s.step l = some t) :
    t.Inv := by
  cases l with
  | process c =>
    cases ht
    exact h.process hl
  | pauseProcessing =>
    cases ht
    exact h
  | resumeProcessing =>
    cases ht
    exact h

/-- Every run whose clock does not go back keeps the history in step with the table. -/
theorem Inv.of_reachable {maxRetries : Nat} {io : Sinks}
    (h : (transactions maxRetries io).ReachableWith ClockForward s) : s.Inv :=
  h.invariant Remembers.start fun _ _ _ hi hl ht ↦ Inv.step hi hl ht

/-- An id that was stored within the window is known. -/
theorem Inv.isDuplicate (h : s.Inv) {nowMs : UInt64} (hle : s.clock ≤ nowMs) {commit : Commit}
    (hcommit : commit ∈ s.commits)
    (hwindow : nowMs.toNat ≤ commit.nowMs.toNat + idempotentWindowMs.toNat) :
    s.processor.dedupTable.isDuplicate commit.eventId = true := by
  refine (Remembers.isDuplicate_iff h).mpr ⟨commit, hcommit, rfl, ?_⟩
  have hcleanup := h.cleanup_le
  rw [UInt64.le_iff_toNat_le] at hle hcleanup
  right
  omega

end TxnRun

/-- An id is stored at most once within the window: whatever was called since, a call on an id
that was stored no longer than the window ago neither reaches `storeEvent` nor reports the
event as processed. -/
theorem stored_at_most_once_within_window {maxRetries : Nat} {io : Sinks} {s : TxnRun}
    (h : (transactions maxRetries io).ReachableWith TxnRun.ClockForward s)
    {commit : Commit} (hcommit : commit ∈ s.commits)
    {c : ProcessCall} (hid : c.event.header.id = commit.eventId) (hclock : s.clock ≤ c.nowMs)
    (hwindow : c.nowMs.toNat ≤ commit.nowMs.toNat + idempotentWindowMs.toNat) :
    (s.process c).commits = s.commits ∧ (s.process c).io.storage = s.io.storage ∧
    ((s.process c).io.notifications = s.io.notifications ∨
      ∃ reason, (s.process c).io.notifications =
        s.io.notifications ++ [.dropped c.event .transactional reason]) := by
  have hknown : s.processor.dedupTable.isDuplicate c.event.header.id = true := by
    rw [hid]
    exact (TxnRun.Inv.of_reachable h).isDuplicate hclock hcommit hwindow
  have hstores : s.processor.stores c = false := by
    simp only [TransactionalProcessor.stores, hknown, Bool.not_true, Bool.and_false,
      Bool.false_and]
  have hcommits : (s.process c).commits = s.commits := by
    simp only [TxnRun.process, hstores, Bool.false_eq_true, if_false]
  refine ⟨hcommits, ?_⟩
  unfold TxnRun.process
  obtain ⟨-, -, hp⟩ | ⟨-, p, reason, -, hp⟩ | ⟨hstored, -⟩ := s.processor.process_cases s.io c
  · rw [hp]
    exact ⟨rfl, .inl rfl⟩
  · rw [hp]
    exact ⟨rfl, .inr ⟨reason, rfl⟩⟩
  · rw [hstores] at hstored
    cases hstored

/-- An id stored at time 1 is not stored again at the very end of the window. -/
theorem stored_at_most_once_at_window_end :
    let event : Event := ⟨⟨.tcp, .medium, 7, 0, 0, 0, 0⟩, [112], [], [], 0⟩
    let s := (TxnRun.initial 3 ⟨some .initial, none, []⟩).process ⟨event, [], 1, 1, 1, 0, false⟩
    let again : ProcessCall := ⟨event, [], 3600001, 2, 2, 0, false⟩
    s.commits = [⟨7, 1, true⟩] ∧ (s.process again).commits = s.commits := by
  intro event s again
  have hs : (transactions 3 ⟨some .initial, none, []⟩).ReachableWith TxnRun.ClockForward s :=
    .next (l := .process ⟨event, [], 1, 1, 1, 0, false⟩) .start (by decide) rfl
  have hcommits : s.commits = [⟨7, 1, true⟩] := by decide +kernel
  have hclock : s.clock = 1 := rfl
  have hcommit : (⟨7, 1, true⟩ : Commit) ∈ s.commits := by
    rw [hcommits]
    exact List.mem_singleton_self _
  refine ⟨hcommits, (stored_at_most_once_within_window hs hcommit rfl ?_ ?_).1⟩
  · rw [hclock]
    decide
  · decide

namespace TxnRun

/-- A call meets no stale entry: what the last cleanup left of the id in the table was stored by
a call that completed, no longer ago than the window and one cleanup interval. -/
def Timely (s : TxnRun) : TxnLabel → Prop
  | .process c => s.processor.paused = false → ∀ commit ∈ s.commits,
      commit.eventId = c.event.header.id →
      SeenMap.Live s.processor.lastCleanupMs commit.nowMs →
      commit.succeeded = true ∧
        c.nowMs.toNat ≤ commit.nowMs.toNat + idempotentWindowMs.toNat + 10000
  | .pauseProcessing => True
  | .resumeProcessing => True

instance (s : TxnRun) (l : TxnLabel) : Decidable (s.Timely l) :=
  match l with
  | .process c => inferInstanceAs (Decidable (s.processor.paused = false → ∀ commit ∈ s.commits,
      commit.eventId = c.event.header.id →
      SeenMap.Live s.processor.lastCleanupMs commit.nowMs →
      commit.succeeded = true ∧
        c.nowMs.toNat ≤ commit.nowMs.toNat + idempotentWindowMs.toNat + 10000))
  | .pauseProcessing => .isTrue trivial
  | .resumeProcessing => .isTrue trivial

/-- A call is discarded as a duplicate only of a call on its id that completed no longer ago
than the window and one cleanup interval; an id last stored before that is not discarded. -/
def DiscardsRecent (s : TxnRun) : TxnLabel → Prop
  | .process c =>
    (s.processor.discards c = true → ∃ commit ∈ s.commits,
      commit.eventId = c.event.header.id ∧ commit.succeeded = true ∧
        c.nowMs.toNat ≤ commit.nowMs.toNat + idempotentWindowMs.toNat + 10000) ∧
    ((∀ commit ∈ s.commits, commit.eventId = c.event.header.id →
      commit.nowMs.toNat + idempotentWindowMs.toNat + 10000 < c.nowMs.toNat) →
        s.processor.discards c = false)
  | .pauseProcessing => True
  | .resumeProcessing => True

/-- A call that meets no stale entry. -/
private theorem Inv.discardsRecent {s : TxnRun} (h : s.Inv) {l : TxnLabel} (hl : s.Timely l) :
    s.DiscardsRecent l := by
  cases l with
  | process c =>
    have hrecent : s.processor.discards c = true → ∃ commit ∈ s.commits,
        commit.eventId = c.event.header.id ∧ commit.succeeded = true ∧
          c.nowMs.toNat ≤ commit.nowMs.toNat + idempotentWindowMs.toNat + 10000 := by
      intro hd
      rw [TransactionalProcessor.discards, Bool.and_eq_true, Bool.not_eq_true'] at hd
      obtain ⟨commit, hc, hid, hlive⟩ := (Remembers.isDuplicate_iff h).mp hd.2
      exact ⟨commit, hc, hid, hl hd.1 commit hc hid hlive⟩
    refine ⟨hrecent, fun hold ↦ ?_⟩
    rw [Bool.eq_false_iff]
    intro hd
    obtain ⟨commit, hc, hid, -, hle⟩ := hrecent hd
    exact absurd hle (Nat.not_le.mpr (hold commit hc hid))
  | pauseProcessing => trivial
  | resumeProcessing => trivial

end TxnRun

/-- In every run whose clock does not go back and whose calls meet no stale entry, only what
completed within the window and one cleanup interval is discarded. -/
theorem discardsRecent_of_timely {maxRetries : Nat} {io : Sinks} {s : TxnRun}
    (h : (transactions maxRetries io).ReachableWith
      (fun s l ↦ s.ClockForward l ∧ s.Timely l) s)
    {l : TxnLabel} (hl : s.ClockForward l ∧ s.Timely l) : s.DiscardsRecent l := by
  have hinv : s.Inv := h.invariant Remembers.start fun _ _ _ hi hl ht ↦ hi.step hl.1 ht
  exact hinv.discardsRecent hl.2

/-- A redelivery at the end of the window is discarded, and the id was stored within it. -/
theorem discardsRecent_at_window_end :
    let event : Event := ⟨⟨.tcp, .medium, 7, 0, 0, 0, 0⟩, [112], [], [], 0⟩
    let s := (TxnRun.initial 3 ⟨some .initial, none, []⟩).process ⟨event, [], 1, 1, 1, 0, false⟩
    let again : ProcessCall := ⟨event, [], 3600001, 2, 2, 0, false⟩
    s.processor.discards again = true ∧ s.DiscardsRecent (.process again) := by
  intro event s again
  have hs : (transactions 3 ⟨some .initial, none, []⟩).ReachableWith
      (fun s l ↦ s.ClockForward l ∧ s.Timely l) s :=
    .next (l := .process ⟨event, [], 1, 1, 1, 0, false⟩) .start (by decide) rfl
  have hguard : s.ClockForward (.process again) ∧ s.Timely (.process again) := by
    decide +kernel
  exact ⟨by decide +kernel, discardsRecent_of_timely hs hguard⟩

/-- An entry outlives its time when nothing is called in between: an id stored at time 1 is
discarded at time 4000000, more than the window and a cleanup interval later. -/
theorem stale_entry_discarded :
    let event : Event := ⟨⟨.tcp, .medium, 7, 0, 0, 0, 0⟩, [112], [], [], 0⟩
    let s := (TxnRun.initial 3 ⟨some .initial, none, []⟩).process ⟨event, [], 1, 1, 1, 0, false⟩
    let again : ProcessCall := ⟨event, [], 4000000, 2, 2, 0, false⟩
    (transactions 3 ⟨some .initial, none, []⟩).ReachableWith TxnRun.ClockForward s ∧
    s.ClockForward (.process again) ∧ s.commits = [⟨7, 1, true⟩] ∧
    s.processor.discards again = true ∧ ¬s.DiscardsRecent (.process again) := by
  intro event s again
  have hs : (transactions 3 ⟨some .initial, none, []⟩).ReachableWith TxnRun.ClockForward s :=
    .next (l := .process ⟨event, [], 1, 1, 1, 0, false⟩) .start (by decide) rfl
  have hcommits : s.commits = [⟨7, 1, true⟩] := by decide +kernel
  have hdiscards : s.processor.discards again = true := by decide +kernel
  refine ⟨hs, by decide +kernel, hcommits, hdiscards, fun hrecent ↦ ?_⟩
  obtain ⟨commit, hc, -, -, hle⟩ := hrecent.1 hdiscards
  rw [hcommits, List.mem_singleton] at hc
  subst hc
  exact absurd hle (by decide)

end EventStreamCore.Processor
