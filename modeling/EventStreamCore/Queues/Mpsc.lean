import EventStreamCore.Lib.Machine
import Mathlib.Data.List.Infix
import Mathlib.Data.List.Nodup
import Mathlib.Logic.Function.Basic

/-!
# The multi-producer single-consumer queue

`MpscQueue`, `include/eventstream/core/queues/mpsc.hpp:8–116`, cut at its atomic accesses:
any number of producers run `push`, `mpsc.hpp:36–56`, and one consumer runs `pop`,
`mpsc.hpp:65–83`, in every sequentially consistent interleaving. Nodes live in a heap of
addresses; the allocator may return any address that is not in use, freed ones included,
and an access to an address not in use has no successor state.
-/

namespace EventStreamCore.Queues
open EventStreamCore.Lib

universe u v

/-- `MpscQueue::Node`; the dummy node and a node whose data was moved out hold no value. -/
structure Node (α : Type u) where
  data : Option α
  next : Option Nat
deriving DecidableEq, Repr

/-- The nodes in use, by address. -/
abbrev Heap (α : Type u) := Nat → Option (Node α)

namespace MpscQueue

/-- Where a producer stands in `push`. The size check is its first access, so a call that
passes it is about to allocate its node. -/
inductive ProducerPc (α : Type u) where
  | idle
  | alloc (item : α)
  | exchange (item : α) (node : Nat)
  | link (node prev : Nat)
  | fetchAdd
deriving DecidableEq, Repr

/-- Where the consumer stands in `pop`; the moved-out item is the value it will return. -/
inductive ConsumerPc (α : Type u) where
  | idle
  | loadNext (head : Nat)
  | moveData (head next : Nat)
  | storeHead (head next : Nat) (item : Option α)
  | delete (head : Nat) (item : Option α)
  | fetchSub (item : Option α)
deriving DecidableEq, Repr

/-- The queue, its threads, and what they have done so far: each producer's calls and the
ones among them that passed the size check, the values in the order of their
`tail_.exchange` with the producer each came from, the values moved out of nodes, the
answers of `pop`, the number of links, of `size_` increments, of stores to `head_` and of
`size_` decrements, and for each push that returned false the number of items linked and
not yet popped when it read `size_`. -/
structure State (ι : Type v) (α : Type u) where
  heap : Heap α
  head : Nat
  tail : Nat
  size : UInt64
  producers : ι → ProducerPc α
  consumer : ConsumerPc α
  calls : ι → List α
  admitted : ι → List α
  exchanged : List (ι × α)
  moved : List (Option α)
  returns : List (Option (Option α))
  linked : Nat
  added : Nat
  advanced : Nat
  subtracted : Nat
  rejected : List Nat

/-- What a step is: a call of `push` with its size check, an allocation at an address the
allocator chooses, the next access of a producer, or the next access of the consumer. -/
inductive Label (ι : Type v) (α : Type u) where
  | callPush (i : ι) (item : α)
  | alloc (i : ι) (node : Nat)
  | producer (i : ι)
  | consumer

namespace State

variable {ι : Type v} {α : Type u} [DecidableEq ι]

/-- Move a producer to another point of its call. -/
def setProducer (s : State ι α) (i : ι) (pc : ProducerPc α) : State ι α :=
  { s with producers := Function.update s.producers i pc }

/-- The producer that moved. -/
theorem setProducer_self (s : State ι α) (i : ι) (pc : ProducerPc α) :
    (s.setProducer i pc).producers i = pc := Function.update_self _ _ _

/-- The other producers stay where they are. -/
theorem setProducer_of_ne (s : State ι α) {i j : ι} (h : j ≠ i) (pc : ProducerPc α) :
    (s.setProducer i pc).producers j = s.producers j := Function.update_of_ne h _ _

/-- `push` up to its size check, `mpsc.hpp:37–40`. -/
def callPush (capacity : Nat) (s : State ι α) (i : ι) (item : α) : State ι α :=
  let calls := Function.update s.calls i (s.calls i ++ [item])
  if s.size.toNat ≥ capacity then
    { s with calls, rejected := s.rejected ++ [s.linked - s.advanced] }
  else
    { s.setProducer i (.alloc item) with
      calls, admitted := Function.update s.admitted i (s.admitted i ++ [item]) }

/-- `new Node(item)`; `mpsc.hpp:42`. -/
def alloc (s : State ι α) (i : ι) (item : α) (node : Nat) : State ι α :=
  { s.setProducer i (.exchange item node) with
    heap := Function.update s.heap node (some ⟨some item, none⟩) }

/-- `tail_.exchange(node)`; `mpsc.hpp:46`. -/
def exchange (s : State ι α) (i : ι) (item : α) (node : Nat) : State ι α :=
  { s.setProducer i (.link node s.tail) with
    tail := node, exchanged := s.exchanged ++ [(i, item)] }

/-- `prev->next.store(node)`; `mpsc.hpp:50`. -/
def link (s : State ι α) (i : ι) (node prev : Nat) : Option (State ι α) :=
  (s.heap prev).map fun n ↦
    { s.setProducer i .fetchAdd with
      heap := Function.update s.heap prev (some { n with next := some node })
      linked := s.linked + 1 }

/-- `size_.fetch_add(1)`; `mpsc.hpp:52`. -/
def fetchAdd (s : State ι α) (i : ι) : State ι α :=
  { s.setProducer i .idle with size := s.size + 1, added := s.added + 1 }

/-- The next access of a producer. -/
def stepProducer (s : State ι α) (i : ι) : Option (State ι α) :=
  match s.producers i with
  | .idle => none
  | .alloc _ => none
  | .exchange item node => some (s.exchange i item node)
  | .link node prev => s.link i node prev
  | .fetchAdd => some (s.fetchAdd i)

omit [DecidableEq ι] in
/-- The next access of the consumer; an idle one starts a `pop`. -/
def stepConsumer (s : State ι α) : Option (State ι α) :=
  match s.consumer with
  | .idle => some { s with consumer := .loadNext s.head }
  | .loadNext head =>
    (s.heap head).map fun n ↦
      match n.next with
      | none => { s with consumer := .idle, returns := s.returns ++ [none] }
      | some next => { s with consumer := .moveData head next }
  | .moveData head next =>
    (s.heap next).map fun n ↦
      { s with
        heap := Function.update s.heap next (some { n with data := none })
        consumer := .storeHead head next n.data
        moved := s.moved ++ [n.data] }
  | .storeHead head next item =>
    some { s with head := next, consumer := .delete head item, advanced := s.advanced + 1 }
  | .delete head item =>
    some { s with heap := Function.update s.heap head none, consumer := .fetchSub item }
  | .fetchSub item =>
    some { s with
      size := s.size - 1, consumer := .idle, returns := s.returns ++ [some item]
      subtracted := s.subtracted + 1 }

/-- One step of any thread. -/
def step (capacity : Nat) (s : State ι α) : Label ι α → Option (State ι α)
  | .callPush i item =>
    match s.producers i with
    | .idle => some (s.callPush capacity i item)
    | _ => none
  | .alloc i node =>
    match s.producers i, s.heap node with
    | .alloc item, none => some (s.alloc i item node)
    | _, _ => none
  | .producer i => s.stepProducer i
  | .consumer => s.stepConsumer

omit [DecidableEq ι] in
/-- A new queue with its dummy node; `mpsc.hpp:11–16`. -/
def initial (dummy : Nat) : State ι α where
  heap := Function.update (fun _ ↦ none) dummy (some ⟨none, none⟩)
  head := dummy
  tail := dummy
  size := 0
  producers _ := .idle
  consumer := .idle
  calls _ := []
  admitted _ := []
  exchanged := []
  moved := []
  returns := []
  linked := 0
  added := 0
  advanced := 0
  subtracted := 0
  rejected := []

/-- The values in the order of their exchanges. -/
def values (s : State ι α) : List (Option α) := s.exchanged.map fun e ↦ some e.2

/-- The values returned by `pop`, in order. -/
def popped (s : State ι α) : List (Option α) := s.returns.filterMap id

end State

/-- All runs of the producers `ι` and the consumer on a new queue. -/
def threads (ι : Type v) (α : Type u) [DecidableEq ι] (capacity dummy : Nat) :
    Machine (State ι α) (Label ι α) where
  start := State.initial dummy
  step := State.step capacity

/-! ### List segments with links still to be made -/

/-- From address `a` on, the heap holds `cells` (address and data), each linked from the one
before it or, as long as its producer has not done so, only promised by it. -/
def Segment (heap : Heap α) (promised : Nat → Nat → Prop) : Nat → List (Nat × Option α) → Prop
  | a, [] => ∃ d, heap a = some ⟨d, none⟩
  | a, (b, v) :: cells =>
    (∃ d, heap a = some ⟨d, some b⟩ ∨ heap a = some ⟨d, none⟩ ∧ promised a b) ∧
    (heap b).map Node.data = some v ∧ Segment heap promised b cells

namespace Segment

variable {α : Type u} {heap heap' : Heap α} {promised promised' : Nat → Nat → Prop} {a : Nat}
  {cells : List (Nat × Option α)}

/-- A segment depends only on its own addresses. -/
theorem congr (h : Segment heap promised a cells)
    (hh : ∀ x ∈ a :: cells.map Prod.fst, heap' x = heap x)
    (hp : ∀ x ∈ a :: cells.map Prod.fst, ∀ y, promised x y → promised' x y) :
    Segment heap' promised' a cells := by
  induction cells generalizing a with
  | nil =>
    obtain ⟨d, hd⟩ := h
    exact ⟨d, (hh a List.mem_cons_self).trans hd⟩
  | cons c cells ih =>
    obtain ⟨⟨d, hd⟩, hv, hrest⟩ := h
    have hb : heap' c.1 = heap c.1 := hh c.1 (by simp)
    refine ⟨⟨d, ?_⟩, by rw [hb]; exact hv, ?_⟩
    · rw [hh a List.mem_cons_self]
      exact hd.imp_right fun h ↦ ⟨h.1, hp a List.mem_cons_self _ h.2⟩
    · apply ih hrest
      · intro x hx
        exact hh x (List.mem_cons_of_mem a hx)
      · intro x hx
        exact hp x (List.mem_cons_of_mem a hx)

/-- The first node of a segment is in use. -/
theorem live_head (h : Segment heap promised a cells) : ∃ n, heap a = some n := by
  cases cells with
  | nil =>
    obtain ⟨d, hd⟩ := h
    exact ⟨_, hd⟩
  | cons c cells =>
    obtain ⟨⟨d, hd | hd⟩, -⟩ := h
    · exact ⟨_, hd⟩
    · exact ⟨_, hd.1⟩

/-- Every node of a segment is in use. -/
theorem live (h : Segment heap promised a cells) {x : Nat} (hx : x ∈ a :: cells.map Prod.fst) :
    ∃ n, heap x = some n := by
  induction cells generalizing a with
  | nil =>
    rw [List.map_nil, List.mem_singleton] at hx
    rw [hx]
    exact h.live_head
  | cons c cells ih =>
    rw [List.map_cons, List.mem_cons] at hx
    rcases hx with rfl | hx
    · exact h.live_head
    · exact ih h.2.2 hx

/-- The last node of a segment has no link. -/
theorem next_last (h : Segment heap promised a cells) {last : Nat}
    (hlast : (a :: cells.map Prod.fst).getLast? = some last) :
    ∃ d, heap last = some ⟨d, none⟩ := by
  induction cells generalizing a with
  | nil =>
    cases hlast
    exact h
  | cons c cells ih => exact ih h.2.2 hlast

/-- A link out of the first node leads to the first cell. -/
theorem eq_cons_of_next (h : Segment heap promised a cells) {b : Nat} {d : Option α}
    (hn : heap a = some ⟨d, some b⟩) : ∃ v rest, cells = (b, v) :: rest := by
  cases cells with
  | nil =>
    obtain ⟨e, he⟩ := h
    rw [hn] at he
    cases he
  | cons c cells =>
    obtain ⟨⟨e, he | ⟨he, -⟩⟩, -⟩ := h
    · rw [hn] at he
      cases he
      exact ⟨c.2, cells, rfl⟩
    · rw [hn] at he
      cases he

/-- A promised node becomes part of the segment behind its last one. -/
theorem concat (h : Segment heap promised a cells) {last b : Nat} {v : α}
    (hlast : (a :: cells.map Prod.fst).getLast? = some last) (hp : promised last b)
    (hb : heap b = some ⟨some v, none⟩) :
    Segment heap promised a (cells ++ [(b, some v)]) := by
  induction cells generalizing a with
  | nil =>
    obtain ⟨d, hd⟩ := h
    cases hlast
    exact ⟨⟨d, .inr ⟨hd, hp⟩⟩, by rw [hb]; rfl, ⟨some v, hb⟩⟩
  | cons c cells ih => exact ⟨h.1, h.2.1, ih h.2.2 hlast⟩

/-- The data of the first cell can be moved out. -/
theorem moveData {b : Nat} {v : Option α} (h : Segment heap promised a ((b, v) :: cells))
    (hnodup : (a :: ((b, v) :: cells).map Prod.fst).Nodup) {n : Node α} (hb : heap b = some n) :
    Segment (Function.update heap b (some { n with data := none })) promised a
      ((b, none) :: cells) := by
  rw [List.map_cons, List.nodup_cons, List.nodup_cons] at hnodup
  obtain ⟨ha, hbc, -⟩ := hnodup
  have hab : a ≠ b := fun h ↦ ha (h ▸ List.mem_cons_self)
  refine ⟨?_, by rw [Function.update_self]; rfl, ?_⟩
  · rw [Function.update_of_ne hab]
    exact h.1
  · -- Only the data of the node at `b` changes, so its link stays what it was.
    have hrest := h.2.2
    cases cells with
    | nil =>
      obtain ⟨d, hd⟩ := hrest
      rw [hb] at hd
      cases hd
      exact ⟨none, Function.update_self _ _ _⟩
    | cons c cells =>
      obtain ⟨⟨d, hd⟩, hv, hrest⟩ := hrest
      have hcb : c.1 ≠ b := fun h ↦ hbc (by simp [h])
      refine ⟨⟨none, ?_⟩, by rw [Function.update_of_ne hcb]; exact hv, ?_⟩
      · rw [Function.update_self]
        rw [hb] at hd
        rcases hd with hd | ⟨hd, hp⟩
        · cases hd
          exact .inl rfl
        · cases hd
          exact .inr ⟨rfl, hp⟩
      · apply hrest.congr _ fun _ _ _ h ↦ h
        intro x hx
        rw [Function.update_of_ne]
        intro hxb
        exact hbc (hxb ▸ hx)

/-- A producer makes its promised link. -/
theorem link (h : Segment heap promised a cells) (hnodup : (a :: cells.map Prod.fst).Nodup)
    {prev node : Nat} (hadj : [prev, node] <:+: a :: cells.map Prod.fst) {n : Node α}
    (hn : heap prev = some n)
    (hp : ∀ x y, promised x y → promised' x y ∨ x = prev ∧ y = node) :
    Segment (Function.update heap prev (some { n with next := some node })) promised' a cells := by
  induction cells generalizing a with
  | nil =>
    have := hadj.length_le
    simp at this
  | cons c cells ih =>
    rw [List.map_cons, List.nodup_cons] at hnodup
    rw [List.map_cons, List.infix_cons_iff] at hadj
    by_cases ha : a = prev
    · subst ha
      have hnode : node = c.1 := by
        rcases hadj with hpre | hinf
        · rw [List.cons_prefix_cons, List.cons_prefix_cons] at hpre
          exact hpre.2.1
        · exact absurd (hinf.subset List.mem_cons_self) hnodup.1
      subst hnode
      have hca : c.1 ≠ a := fun h ↦ hnodup.1 (h ▸ List.mem_cons_self)
      refine ⟨⟨n.data, .inl (Function.update_self _ _ _)⟩, ?_, ?_⟩
      · rw [Function.update_of_ne hca]
        exact h.2.1
      · apply h.2.2.congr
        · intro x hx
          rw [Function.update_of_ne]
          rintro rfl
          exact hnodup.1 hx
        · intro x hx y hxy
          rcases hp x y hxy with hxy | ⟨rfl, -⟩
          · exact hxy
          · exact absurd hx hnodup.1
    · have hinf : [prev, node] <:+: c.1 :: cells.map Prod.fst := by
        rcases hadj with hpre | hinf
        · rw [List.cons_prefix_cons] at hpre
          exact absurd hpre.1.symm ha
        · exact hinf
      obtain ⟨⟨d, hd⟩, hv, hrest⟩ := h
      refine ⟨⟨d, ?_⟩, ?_, ih hrest hnodup.2 hinf⟩
      · rw [Function.update_of_ne ha]
        apply hd.imp_right
        rintro ⟨hd, hab⟩
        rcases hp a c.1 hab with hab | ⟨rfl, -⟩
        · exact ⟨hd, hab⟩
        · exact absurd rfl ha
      · by_cases hc : c.1 = prev
        · rw [hc, Function.update_self]
          rw [hc, hn] at hv
          exact hv
        · rw [Function.update_of_ne hc]
          exact hv

end Segment
end MpscQueue
end EventStreamCore.Queues
