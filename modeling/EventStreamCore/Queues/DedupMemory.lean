import EventStreamCore.Queues.DedupThreads
import Mathlib.Logic.Relation

/-!
# The deduplication table over addresses

The accesses of `insert`, `dedup.cpp:6–57`, and `cleanup`, `dedup.cpp:61–155`, on the memory that
`new` and `delete` hand out and take back. Pointers are addresses, a compare-exchange compares
addresses, and an address that is free again may be given to a later entry.
-/

namespace EventStreamCore.Queues.DedupThreads
open EventStreamCore.Lib

universe u

/-- The memory of the table: the `next` pointer at an address, the call whose id and time were
last stored there, and whether the address is allocated; the number of calls, the heads, the
threads, and the history by calls. For each insert, `loaded` keeps the call whose entry was at
the head it loaded last; no step reads it. -/
structure Memory (τ : Type u) (n : Nat) where
  next : Nat → Option Nat
  cell : Nat → Nat
  inUse : Nat → Bool
  calls : Nat
  heads : Fin n → Option Nat
  inserters : τ → InsertPc
  loaded : τ → Option Nat
  cleaner : CleanerPc n
  history : List DedupEvent

namespace Memory

variable {τ : Type u} {n : Nat}

/-- An empty table and free memory. -/
def initial : Memory τ n where
  next _ := none
  cell _ := 0
  inUse _ := false
  calls := 0
  heads _ := none
  inserters _ := .idle
  loaded _ := none
  cleaner := .idle
  history := []

/-- The id and the time stored at an address; the `k`-th call stores those of `entry k`. -/
def read (entry : Nat → Entry) (s : Memory τ n) (a : Nat) : Entry := entry (s.cell a)

/-- `delete`. -/
def free (s : Memory τ n) (a : Nat) : Memory τ n :=
  { s with inUse := Function.update s.inUse a false }

/-- Move a thread. -/
def setInserter [DecidableEq τ] (s : Memory τ n) (t : τ) (pc : InsertPc) : Memory τ n :=
  { s with inserters := Function.update s.inserters t pc }

/-- `insert` deletes its entry and returns `false`. -/
def refuse [DecidableEq τ] (s : Memory τ n) (t : τ) (node : Nat) : Memory τ n :=
  { (s.free node).setInserter t .idle with history := s.history ++ [.refused (s.cell node)] }

/-- One access of `insert`. -/
def stepInsert [DecidableEq τ] [NeZero n] (entry : Nat → Entry) (s : Memory τ n) (t : τ) :
    Option (Memory τ n) :=
  match s.inserters t with
  | .idle => none
  | .loadHead node retryCount =>
    let head := s.heads (LockFreeDeduplicator.bucketIdx (s.read entry node).id)
    some { s.setInserter t (.walkTo node retryCount head head) with
      loaded := Function.update s.loaded t (head.map s.cell) }
  | .walk node retryCount head curr =>
    if (s.read entry curr).id = (s.read entry node).id then some (s.refuse t node)
    else some (s.setInserter t (.walkTo node retryCount head (s.next curr)))
  | .writeNext node retryCount head =>
    some { s.setInserter t (.casHead node retryCount head) with
      next := Function.update s.next node head }
  | .casHead node retryCount head =>
    let bucketIdx := LockFreeDeduplicator.bucketIdx (s.read entry node).id
    if s.heads bucketIdx = head then
      some { s.setInserter t .idle with
        heads := Function.update s.heads bucketIdx (some node)
        history := s.history ++ [.inserted (s.cell node)] }
    else if retryCount + 1 < maxRetries then
      some (s.setInserter t (.loadHead node (retryCount + 1)))
    else some (s.refuse t node)

/-- One access of `cleanup`; an entry it has taken out of a chain it deletes. -/
def stepCleaner (entry : Nat → Entry) (s : Memory τ n) : Option (Memory τ n) :=
  match s.cleaner with
  | .idle => none
  | .loadHead nowMs i => some { s with cleaner := .phase1 (s.read entry) nowMs i 0 (s.heads i) }
  | .readHeadNext nowMs i head headRetries =>
    some { s with cleaner := .casHead nowMs i head (s.next head) headRetries }
  | .casHead nowMs i head next headRetries =>
    if s.heads i = some head then
      some { s.free head with
        heads := Function.update s.heads i next
        cleaner := .phase1 (s.read entry) nowMs i 0 next
        history := s.history ++ [.removed (s.cell head) nowMs] }
    else some { s with cleaner := .phase1 (s.read entry) nowMs i (headRetries + 1) (s.heads i) }
  | .readFirst nowMs i prev => some { s with cleaner := .phase2 nowMs i prev (s.next prev) }
  | .readNext nowMs i prev curr =>
    if (s.read entry curr).expired nowMs then
      some { s with cleaner := .unlink nowMs i prev curr (s.next curr) }
    else some { s with cleaner := .phase2 nowMs i curr (s.next curr) }
  | .unlink nowMs i prev curr next =>
    some { s.free curr with
      next := Function.update s.next prev next
      cleaner := .phase2 nowMs i prev next
      history := s.history ++ [.removed (s.cell curr) nowMs] }

/-- One step of one thread. The `k`-th call of `insert` gets `address k` from `new`, which hands
out free memory only. -/
def step [DecidableEq τ] [NeZero n] (entry : Nat → Entry) (address : Nat → Nat)
    (s : Memory τ n) : Label τ → Option (Memory τ n)
  | .callInsert t =>
    let node := address s.calls
    if s.inserters t = .idle ∧ s.inUse node = false then
      some { s.setInserter t (.loadHead node 0) with
        next := Function.update s.next node none
        cell := Function.update s.cell node s.calls
        inUse := Function.update s.inUse node true
        calls := s.calls + 1 }
    else none
  | .inserter t => s.stepInsert entry t
  | .callCleanup nowMs =>
    if s.cleaner = .idle then some { s with cleaner := .loadHead nowMs 0 } else none
  | .cleaner => s.stepCleaner entry

/-- A thread may still read an address: an insert stands at an entry from which the pointers
lead there. -/
def Readable (s : Memory τ n) (a : Nat) : Prop :=
  ∃ t node retryCount head curr, s.inserters t = .walk node retryCount head curr ∧
    Relation.ReflTransGen (fun x y ↦ s.next x = some y) curr a

/-- An address is not allocated again while another thread may still read it. -/
def Reclaims (address : Nat → Nat) (s : Memory τ n) : Label τ → Prop
  | .callInsert _ => ¬ s.Readable (address s.calls)
  | .inserter _ => True
  | .callCleanup _ => True
  | .cleaner => True

/-- The compare-exchange of an insert is about to succeed on the address it loaded, where there
is an entry now that was not there when it loaded it. -/
def headReused [NeZero n] (entry : Nat → Entry) (s : Memory τ n) : Label τ → Bool
  | .inserter t =>
    match s.inserters t with
    | .casHead node _ head =>
      s.heads (LockFreeDeduplicator.bucketIdx (s.read entry node).id) == head &&
        head.map s.cell != s.loaded t
    | _ => false
  | _ => false

/-- Each bucket's chain is finite and holds only ids of the bucket, none of them twice; an entry
whose insert returned `true` is on its chain or has been removed since; only a cleanup later
than its time by more than the window removes it; and between two insertions of one id the first
entry has been removed. -/
structure Correct [NeZero n] (entry : Nat → Entry) (address : Nat → Nat) (s : Memory τ n) :
    Prop where
  chains : ∀ i, ∃ chain, Linked s.next (s.heads i) chain ∧
    (∀ a ∈ chain, (s.read entry a).id.toNat % n = i) ∧
    (chain.map fun a ↦ (s.read entry a).id).Nodup
  kept : ∀ k, .inserted k ∈ s.history →
    (∃ chain, Linked s.next (s.heads (LockFreeDeduplicator.bucketIdx (entry k).id)) chain ∧
      address k ∈ chain ∧ s.cell (address k) = k) ∨
    ∃ nowMs, [.inserted k, .removed k nowMs].Sublist s.history
  expired : ∀ k nowMs, .removed k nowMs ∈ s.history →
    (entry k).timestampMs.toNat + idempotentWindowMs.toNat < nowMs.toNat
  spaced : ∀ j k, [.inserted j, .inserted k].Sublist s.history → (entry j).id = (entry k).id →
    ∃ nowMs, [.inserted j, .removed j nowMs, .inserted k].Sublist s.history

end Memory

/-- All interleavings of the calls with the ids and times `entry` on memory handed out as
`address` says. -/
def dedupMemory (τ : Type u) [DecidableEq τ] (n : Nat) [NeZero n] (entry : Nat → Entry)
    (address : Nat → Nat) : Machine (Memory τ n) (Label τ) where
  start := .initial
  step := Memory.step entry address

end EventStreamCore.Queues.DedupThreads
