import EventStreamCore.Lib.Linked
import EventStreamCore.Lib.Machine
import EventStreamCore.Queues.DedupMap

/-!
# Threads on the deduplication table

`LockFreeDeduplicator::insert`, `src/core/queues/dedup.cpp:6–57`, called by any number of
threads, and `cleanup`, `dedup.cpp:61–155`, called by one, cut at each load and compare-exchange
of a bucket's head and each read and write of a `next` pointer. An entry is named by the call of
`insert` that allocated it, and pointers are names. Where nothing published is freed this is
memory itself; where `delete` lets an address be allocated again, a compare-exchange compares
addresses and not names, which is left to the machine over addresses.
-/

namespace EventStreamCore.Queues.DedupThreads
open EventStreamCore.Lib

universe u

/-- `MAX_RETRIES` of `insert`. -/
def maxRetries : Nat := 3

/-- `MAX_HEAD_RETRIES` of `cleanup_bucket_count`. -/
def maxHeadRetries : Nat := 10

/-- Where an `insert` of the entry at `node` stands: the access it makes next. -/
inductive InsertPc where
  | idle
  | loadHead (node retryCount : Nat)
  | walk (node retryCount : Nat) (head : Option Nat) (curr : Nat)
  | writeNext (node retryCount : Nat) (head : Option Nat)
  | casHead (node retryCount : Nat) (head : Option Nat)
deriving DecidableEq, Repr

/-- The loop over the chain: the next entry, or its end. -/
def InsertPc.walkTo (node retryCount : Nat) (head : Option Nat) : Option Nat → InsertPc
  | none => .writeNext node retryCount head
  | some curr => .walk node retryCount head curr

/-- Where `cleanup(nowMs)` stands in bucket `i`: phase 1 takes expired entries off the head,
phase 2 unlinks them from behind an entry that stays. -/
inductive CleanerPc (n : Nat) where
  | idle
  | loadHead (nowMs : UInt64) (i : Fin n)
  | readHeadNext (nowMs : UInt64) (i : Fin n) (head headRetries : Nat)
  | casHead (nowMs : UInt64) (i : Fin n) (head : Nat) (next : Option Nat) (headRetries : Nat)
  | readFirst (nowMs : UInt64) (i : Fin n) (prev : Nat)
  | readNext (nowMs : UInt64) (i : Fin n) (prev curr : Nat)
  | unlink (nowMs : UInt64) (i : Fin n) (prev curr : Nat) (next : Option Nat)
deriving DecidableEq, Repr

/-- What an entry has met: its insertion, the refusal of its insertion, or its removal by a
cleanup. -/
inductive DedupEvent where
  | inserted (node : Nat)
  | refused (node : Nat)
  | removed (node : Nat) (nowMs : UInt64)
deriving DecidableEq, Repr

/-- The table: the `next` pointers, the number of entries allocated, the heads of the buckets,
the threads, and the history. -/
structure State (τ : Type u) (n : Nat) where
  next : Nat → Option Nat
  fresh : Nat
  heads : Fin n → Option Nat
  inserters : τ → InsertPc
  cleaner : CleanerPc n
  history : List DedupEvent

/-- Which thread does what next. -/
inductive Label (τ : Type u) where
  | callInsert (t : τ)
  | inserter (t : τ)
  | callCleanup (nowMs : UInt64)
  | cleaner

variable {τ : Type u} {n : Nat}

namespace CleanerPc

/-- The loop of `cleanup` over the buckets. -/
def nextBucket (nowMs : UInt64) (i : Fin n) : CleanerPc n :=
  if h : i.val + 1 < n then .loadHead nowMs ⟨i.val + 1, h⟩ else .idle

/-- The condition of phase 1 on a head just read, and the way into phase 2. -/
def phase1 (entry : Nat → Entry) (nowMs : UInt64) (i : Fin n) (headRetries : Nat) :
    Option Nat → CleanerPc n
  | none => nextBucket nowMs i
  | some head =>
    if headRetries < maxHeadRetries ∧ (entry head).expired nowMs
    then .readHeadNext nowMs i head headRetries else .readFirst nowMs i head

/-- The condition of phase 2. -/
def phase2 (nowMs : UInt64) (i : Fin n) (prev : Nat) : Option Nat → CleanerPc n
  | none => nextBucket nowMs i
  | some curr => .readNext nowMs i prev curr

end CleanerPc

namespace State

/-- An empty table. -/
def initial : State τ n := ⟨fun _ ↦ none, 0, fun _ ↦ none, fun _ ↦ .idle, .idle, []⟩

variable [DecidableEq τ] [NeZero n]

/-- Move a thread. -/
def setInserter (s : State τ n) (t : τ) (pc : InsertPc) : State τ n :=
  { s with inserters := Function.update s.inserters t pc }

/-- One access of `insert`; the `k`-th call has the id and the time of `entry k`. -/
def stepInsert (entry : Nat → Entry) (s : State τ n) (t : τ) : Option (State τ n) :=
  match s.inserters t with
  | .idle => none
  | .loadHead node retryCount =>
    let head := s.heads (LockFreeDeduplicator.bucketIdx (entry node).id)
    some (s.setInserter t (.walkTo node retryCount head head))
  | .walk node retryCount head curr =>
    if (entry curr).id = (entry node).id then
      some { s.setInserter t .idle with history := s.history ++ [.refused node] }
    else some (s.setInserter t (.walkTo node retryCount head (s.next curr)))
  | .writeNext node retryCount head =>
    some { s.setInserter t (.casHead node retryCount head) with
      next := Function.update s.next node head }
  | .casHead node retryCount head =>
    let bucketIdx := LockFreeDeduplicator.bucketIdx (entry node).id
    if s.heads bucketIdx = head then
      some { s.setInserter t .idle with
        heads := Function.update s.heads bucketIdx (some node)
        history := s.history ++ [.inserted node] }
    else if retryCount + 1 < maxRetries then
      some (s.setInserter t (.loadHead node (retryCount + 1)))
    else some { s.setInserter t .idle with history := s.history ++ [.refused node] }

/-- One access of `cleanup`. -/
def stepCleaner (entry : Nat → Entry) (s : State τ n) : Option (State τ n) :=
  match s.cleaner with
  | .idle => none
  | .loadHead nowMs i => some { s with cleaner := .phase1 entry nowMs i 0 (s.heads i) }
  | .readHeadNext nowMs i head headRetries =>
    some { s with cleaner := .casHead nowMs i head (s.next head) headRetries }
  | .casHead nowMs i head next headRetries =>
    if s.heads i = some head then
      some { s with
        heads := Function.update s.heads i next
        cleaner := .phase1 entry nowMs i 0 next
        history := s.history ++ [.removed head nowMs] }
    else some { s with cleaner := .phase1 entry nowMs i (headRetries + 1) (s.heads i) }
  | .readFirst nowMs i prev => some { s with cleaner := .phase2 nowMs i prev (s.next prev) }
  | .readNext nowMs i prev curr =>
    if (entry curr).expired nowMs then
      some { s with cleaner := .unlink nowMs i prev curr (s.next curr) }
    else some { s with cleaner := .phase2 nowMs i curr (s.next curr) }
  | .unlink nowMs i prev curr next =>
    some { s with
      next := Function.update s.next prev next
      cleaner := .phase2 nowMs i prev next
      history := s.history ++ [.removed curr nowMs] }

/-- One step of one thread. -/
def step (entry : Nat → Entry) (s : State τ n) : Label τ → Option (State τ n)
  | .callInsert t =>
    if s.inserters t = .idle then
      some { s.setInserter t (.loadHead s.fresh 0) with
        next := Function.update s.next s.fresh none
        fresh := s.fresh + 1 }
    else none
  | .inserter t => s.stepInsert entry t
  | .callCleanup nowMs =>
    if s.cleaner = .idle then some { s with cleaner := .loadHead nowMs 0 } else none
  | .cleaner => s.stepCleaner entry

end State

/-- All interleavings of the calls whose ids and times, in the order of the calls, are `entry`. -/
def dedupThreads (τ : Type u) [DecidableEq τ] (n : Nat) [NeZero n] (entry : Nat → Entry) :
    Machine (State τ n) (Label τ) where
  start := State.initial
  step := State.step entry

end EventStreamCore.Queues.DedupThreads
