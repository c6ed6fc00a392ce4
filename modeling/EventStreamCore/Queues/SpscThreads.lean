import EventStreamCore.Queues.Spsc

/-!
# One producer and one consumer on the ring

The threads of `spsc.hpp` in every sequentially consistent interleaving: the producer
calls `push` and `size`, the consumer calls `pop`, and a step is one atomic load, one
atomic store or one slot access. What the threads observe is recorded in histories,
together with the number of elements held at the accesses that decide the answer.
-/

namespace EventStreamCore.Queues.SpscRingBuffer
open EventStreamCore.Lib

universe u

variable {C : Capacity} {α : Type u}

/-- What the producer thread is doing; a `size` keeps the count at its first load. -/
inductive Producer (C : Capacity) (α : Type u) where
  | idle
  | pushing (item : α) (pc : PushPc C)
  | sizing (first : Nat) (pc : SizePc C)

/-- An answer of `push`; a rejection carries the count held when it read `tail_`. -/
inductive PushReturn (α : Type u) where
  | accepted (item : α)
  | full (item : α) (held : Nat)
deriving DecidableEq, Repr

/-- An answer of `pop`; `nullopt` carries the count held when it read `head_`. -/
inductive PopReturn (α : Type u) where
  | taken (item : α)
  | empty (held : Nat)
deriving DecidableEq, Repr

/-- An answer of `size` with the counts held at its two loads. -/
structure SizeReturn where
  first : Nat
  second : Nat
  result : Nat
deriving DecidableEq, Repr

/-- The item of a `push` that returned true. -/
def PushReturn.accepted? : PushReturn α → Option α
  | .accepted item => some item
  | .full _ _ => none

/-- The value of a `pop` that returned one. -/
def PopReturn.taken? : PopReturn α → Option α
  | .taken item => some item
  | .empty _ => none

/-- The ring, its two threads and their histories. -/
structure Threads (C : Capacity) (α : Type u) where
  ring : SpscRingBuffer C α
  producer : Producer C α
  consumer : Option (PopPc C α)
  published : List α
  pushes : List (PushReturn α)
  pops : List (PopReturn α)
  sizes : List SizeReturn

/-- The values returned by `pop`, in order. -/
def Threads.returned (s : Threads C α) : List α := s.pops.filterMap PopReturn.taken?

/-- What a step of the two threads is: the start of a call, or its next access. -/
inductive ThreadLabel (α : Type u) where
  | callPush (item : α)
  | callSize
  | producer
  | callPop
  | consumer

/-- The next access of a `push` in progress. -/
def Threads.stepPush (s : Threads C α) (item : α) (pc : PushPc C) : Threads C α :=
  let published := s.published ++ pc.publishes item
  match pushStep item s.ring pc with
  | (ring, .running pc') => { s with ring, published, producer := .pushing item pc' }
  | (ring, .returned true) =>
    { s with ring, published, producer := .idle, pushes := s.pushes ++ [.accepted item] }
  | (ring, .returned false) =>
    { s with ring, published, producer := .idle, pushes := s.pushes ++ [.full item s.ring.size] }

/-- The next load of a `size` in progress. -/
def Threads.stepSize (s : Threads C α) (first : Nat) (pc : SizePc C) : Threads C α :=
  match sizeStep s.ring pc with
  | .running pc' => { s with producer := .sizing s.ring.size pc' }
  | .returned result =>
    { s with producer := .idle, sizes := s.sizes ++ [⟨first, s.ring.size, result⟩] }

/-- The next access of a `pop` in progress. -/
def Threads.stepPop (s : Threads C α) (pc : PopPc C α) : Threads C α :=
  match popStep s.ring pc with
  | (ring, .running pc') => { s with ring, consumer := some pc' }
  | (ring, .returned (some item)) =>
    { s with ring, consumer := none, pops := s.pops ++ [.taken item] }
  | (ring, .returned none) =>
    { s with ring, consumer := none, pops := s.pops ++ [.empty s.ring.size] }

/-- One step of either thread; a thread starts a call only when it is in none. -/
def Threads.step (s : Threads C α) : ThreadLabel α → Option (Threads C α)
  | .callPush item =>
    match s.producer with
    | .idle => some { s with producer := .pushing item .loadHead }
    | _ => none
  | .callSize =>
    match s.producer with
    | .idle => some { s with producer := .sizing 0 .loadHead }
    | _ => none
  | .producer =>
    match s.producer with
    | .idle => none
    | .pushing item pc => some (s.stepPush item pc)
    | .sizing first pc => some (s.stepSize first pc)
  | .callPop =>
    match s.consumer with
    | none => some { s with consumer := some .loadTail }
    | some _ => none
  | .consumer => s.consumer.map s.stepPop

/-- All runs of the two threads on a new ring. -/
def threads (C : Capacity) (buffer : Fin C.val → α) : Machine (Threads C α) (ThreadLabel α) where
  start := ⟨initial C buffer, .idle, none, [], [], [], []⟩
  step := Threads.step

/-! ### The invariant -/

/-- What the producer thread knows of the ring. -/
def Producer.At (r : SpscRingBuffer C α) (log : List α) (lo : Nat) : Producer C α → Prop
  | .idle => True
  | .pushing item pc => pc.At r log lo item
  | .sizing first pc => pc.At log lo first

private theorem Producer.At.release {r r' : SpscRingBuffer C α} {log : List α} {lo : Nat}
    {p : Producer C α} (h : p.At r log lo) (hb : r'.buffer = r.buffer) :
    p.At r' log (lo + 1) := by
  cases p with
  | idle => trivial
  | pushing item pc => exact PushPc.At.release h hb
  | sizing first pc => exact SizePc.At.release h

/-- The answers given so far are the right ones. -/
structure Answers (C : Capacity) (published : List α) (pushes : List (PushReturn α))
    (pops : List (PopReturn α)) (sizes : List SizeReturn) : Prop where
  accepted : published = pushes.filterMap PushReturn.accepted?
  full : ∀ item held, .full item held ∈ pushes → held = C.val - 1
  empty : ∀ held, .empty held ∈ pops → held = 0
  sizes : ∀ a ∈ sizes, a.result = a.second ∧ a.second ≤ a.first

/-- The ring shows what was published and not yet returned, each thread's local values
are up to date, and every answer was right. -/
structure Threads.Inv (s : Threads C α) : Prop where
  view : s.ring.View s.published s.returned.length
  prefix_returned : s.returned <+: s.published
  producer : s.producer.At s.ring s.published s.returned.length
  consumer : ∀ pc, s.consumer = some pc → pc.At s.published s.returned.length
  answers : Answers C s.published s.pushes s.pops s.sizes

private theorem inv_start (buffer : Fin C.val → α) : (threads C buffer).start.Inv where
  view := View.initial buffer
  prefix_returned := List.prefix_rfl
  producer := trivial
  consumer := nofun
  answers := ⟨rfl, nofun, nofun, nofun⟩

private theorem inv_stepPush {s : Threads C α} {item : α} {pc : PushPc C} (h : s.Inv)
    (hp : s.producer = .pushing item pc) : (s.stepPush item pc).Inv := by
  have hat := h.producer
  rw [hp] at hat
  have ho := pushStep_outcome h.view hat
  unfold Threads.stepPush
  cases hs : pushStep item s.ring pc with
  | mk ring result =>
    rw [hs] at ho
    cases ho with
    | running hv hat' hpub =>
      simp only [hpub, List.append_nil]
      exact ⟨hv, h.prefix_returned, hat', h.consumer, h.answers⟩
    | accepted hv hpub =>
      simp only [hpub]
      refine ⟨hv, h.prefix_returned.trans (List.prefix_append _ _), trivial, ?_, ?_, ?_,
        h.answers.empty, h.answers.sizes⟩
      · intro pc' hc
        exact (h.consumer pc' hc).publish item
      · rw [List.filterMap_append, ← h.answers.accepted]
        rfl
      · intro x held hm
        rcases List.mem_append.mp hm with hm | hm
        · exact h.answers.full x held hm
        · cases List.mem_singleton.mp hm
    | full hsize hpub =>
      simp only [hpub, List.append_nil]
      refine ⟨h.view, h.prefix_returned, trivial, h.consumer, ?_, ?_, h.answers.empty,
        h.answers.sizes⟩
      · rw [List.filterMap_append, ← h.answers.accepted]
        exact (List.append_nil _).symm
      · intro x held hm
        rcases List.mem_append.mp hm with hm | hm
        · exact h.answers.full x held hm
        · cases List.mem_singleton.mp hm
          exact hsize

private theorem inv_stepSize {s : Threads C α} {first : Nat} {pc : SizePc C} (h : s.Inv)
    (hp : s.producer = .sizing first pc) : (s.stepSize first pc).Inv := by
  have hat := h.producer
  rw [hp] at hat
  unfold Threads.stepSize
  cases pc with
  | loadHead =>
    refine ⟨h.view, h.prefix_returned, ?_, h.consumer, h.answers⟩
    exact ⟨h.view.head, by rw [h.view.size_eq]; exact Nat.le_refl _⟩
  | loadTail head =>
    obtain ⟨hhead, hfirst⟩ := hat
    refine ⟨h.view, h.prefix_returned, trivial, h.consumer, h.answers.accepted,
      h.answers.full, h.answers.empty, ?_⟩
    intro a hm
    rcases List.mem_append.mp hm with hm | hm
    · exact h.answers.sizes a hm
    · rw [List.mem_singleton.mp hm]
      refine ⟨?_, ?_⟩
      · rw [hhead, ← h.view.head]
        rfl
      · rw [h.view.size_eq]
        exact hfirst

private theorem inv_stepPop {s : Threads C α} {pc : PopPc C α} (h : s.Inv)
    (hc : s.consumer = some pc) : (s.stepPop pc).Inv := by
  have ho := popStep_outcome h.view (h.consumer pc hc)
  unfold Threads.stepPop
  cases hs : popStep s.ring pc with
  | mk ring result =>
    rw [hs] at ho
    cases ho with
    | running hat' =>
      refine ⟨h.view, h.prefix_returned, h.producer, ?_, h.answers⟩
      intro pc' he
      cases he
      exact hat'
    | @taken _ item hv hb hitem =>
      have hret : (s.pops ++ [PopReturn.taken item]).filterMap PopReturn.taken? =
          s.returned ++ [item] := by
        rw [List.filterMap_append]
        rfl
      have hlen : (s.returned ++ [item]).length = s.returned.length + 1 := by simp
      refine ⟨?_, ?_, ?_, nofun, h.answers.accepted, h.answers.full, ?_, h.answers.sizes⟩
      · rw [Threads.returned, hret, hlen]
        exact hv
      · rw [Threads.returned, hret]
        exact concat_isPrefix h.prefix_returned hitem
      · rw [Threads.returned, hret, hlen]
        exact h.producer.release hb
      · intro held hm
        rcases List.mem_append.mp hm with hm | hm
        · exact h.answers.empty held hm
        · cases List.mem_singleton.mp hm
    | empty hsize =>
      have hret : (s.pops ++ [PopReturn.empty s.ring.size]).filterMap PopReturn.taken? =
          s.returned := by
        rw [List.filterMap_append]
        exact List.append_nil _
      refine ⟨?_, ?_, ?_, nofun, h.answers.accepted, h.answers.full, ?_, h.answers.sizes⟩
      · rw [Threads.returned, hret]
        exact h.view
      · rw [Threads.returned, hret]
        exact h.prefix_returned
      · rw [Threads.returned, hret]
        exact h.producer
      · intro held hm
        rcases List.mem_append.mp hm with hm | hm
        · exact h.answers.empty held hm
        · cases List.mem_singleton.mp hm
          exact hsize

/-- Every step of either thread keeps the invariant. -/
theorem Threads.Inv.step {s t : Threads C α} {l : ThreadLabel α} (h : s.Inv)
    (hs : s.step l = some t) : t.Inv := by
  cases l with
  | callPush item =>
    simp only [Threads.step] at hs
    split at hs
    · cases hs
      exact ⟨h.view, h.prefix_returned, trivial, h.consumer, h.answers⟩
    · cases hs
  | callSize =>
    simp only [Threads.step] at hs
    split at hs
    · cases hs
      exact ⟨h.view, h.prefix_returned, trivial, h.consumer, h.answers⟩
    · cases hs
  | producer =>
    simp only [Threads.step] at hs
    split at hs
    · cases hs
    · next item pc hp =>
      cases hs
      exact inv_stepPush h hp
    · next first pc hp =>
      cases hs
      exact inv_stepSize h hp
  | callPop =>
    simp only [Threads.step] at hs
    split at hs
    · cases hs
      refine ⟨h.view, h.prefix_returned, h.producer, ?_, h.answers⟩
      intro pc he
      cases he
      trivial
    · cases hs
  | consumer =>
    simp only [Threads.step, Option.map_eq_some_iff] at hs
    obtain ⟨pc, hc, rfl⟩ := hs
    exact inv_stepPop h hc

/-- The invariant holds in every reachable state. -/
theorem Threads.Inv.of_reachable {buffer : Fin C.val → α} {s : Threads C α}
    (h : (threads C buffer).Reachable s) : s.Inv :=
  Machine.Reachable.invariant (inv_start buffer) (fun _ _ _ hi hs ↦ hi.step hs) h

/-- The ring refines a bounded queue. In every reachable state the values returned are a
prefix of those published, which are those of the pushes that returned true; the
elements held are the rest, at most `Capacity - 1` of them; a push was rejected only at
that bound, a pop found nothing only in an empty ring, and a size lies between the
counts at its two loads. -/
theorem threads_refine_bounded_fifo (C : Capacity) (buffer : Fin C.val → α) (s : Threads C α)
    (h : (threads C buffer).Reachable s) :
    s.returned <+: s.published ∧
    s.published = s.pushes.filterMap PushReturn.accepted? ∧
    s.ring.contents = s.published.drop s.returned.length ∧
    s.ring.contents.length = s.ring.size ∧
    s.ring.size ≤ C.val - 1 ∧
    (∀ item held, .full item held ∈ s.pushes → held = C.val - 1) ∧
    (∀ held, .empty held ∈ s.pops → held = 0) ∧
    ∀ a ∈ s.sizes, min a.first a.second ≤ a.result ∧ a.result ≤ max a.first a.second := by
  have hi := Threads.Inv.of_reachable h
  refine ⟨hi.prefix_returned, hi.answers.accepted, hi.view.contents_eq, ?_, hi.view.size_le,
    hi.answers.full, hi.answers.empty, ?_⟩
  · rw [hi.view.contents_eq, hi.view.size_eq, List.length_drop]
  · intro a ha
    have := hi.answers.sizes a ha
    omega

/-- A run on a ring of two slots: a push is accepted, a second one is rejected because
the ring holds one element, which is taken between the two loads of a `size`. -/
theorem threads_refine_two_slots : ∃ s : Threads ⟨2, by decide, by decide⟩ Char,
    (threads _ fun _ ↦ 'x').Reachable s ∧ s.pushes = [.accepted 'a', .full 'b' 1] ∧
    s.sizes = [⟨1, 0, 0⟩] ∧ s.pops = [.taken 'a', .empty 0] ∧ s.returned <+: s.published := by
  let m : Machine (Threads ⟨2, by decide, by decide⟩ Char) (ThreadLabel Char) :=
    threads _ fun _ ↦ 'x'
  have hrun : (m.run m.start
      [.callPush 'a', .producer, .producer, .producer, .producer, .callPush 'b', .callPop,
        .producer, .consumer, .producer, .callSize, .producer, .consumer, .consumer, .consumer,
        .producer, .callPop, .consumer, .consumer]).map (fun s ↦ (s.pushes, s.sizes, s.pops)) =
      some ([.accepted 'a', .full 'b' 1], [⟨1, 0, 0⟩], [.taken 'a', .empty 0]) := by
    decide +kernel
  obtain ⟨s, hrun, hs⟩ := Option.map_eq_some_iff.mp hrun
  have hreach := Machine.Reachable.run .start hrun
  exact ⟨s, hreach, congrArg (·.1) hs, congrArg (·.2.1) hs, congrArg (·.2.2) hs,
    (threads_refine_bounded_fifo _ _ s hreach).1⟩

end EventStreamCore.Queues.SpscRingBuffer
