import EventStreamCore.Queues.MpscProducers

/-!
# The consumer on the list

The accesses of `pop`, `mpsc.hpp:65–83`, and with them every step of any thread; and what a
consumer finds that goes on by itself.
-/

namespace EventStreamCore.Queues.MpscQueue
open EventStreamCore.Lib

universe u v

variable {ι : Type v} {α : Type u}

section Consumer

variable {s t : State ι α} {cells : List (Nat × Option α)}

private theorem inv_loadNext {head : Nat} (h : s.Inv cells) (hc : s.consumer = .loadNext head)
    (ht : s.stepConsumer = some t) : t.Inv cells := by
  obtain ⟨hseg, hnodup, htail, hvalues, hmoved, hprod, hown, hat⟩ := h
  simp only [hc] at hnodup hvalues hmoved hprod hat
  cases hat
  simp only [State.stepConsumer, hc, Option.map_eq_some_iff] at ht
  obtain ⟨⟨d, next⟩, hn, rfl⟩ := ht
  cases next with
  | none =>
    refine ⟨hseg, hnodup, htail, hvalues, ?_, hprod, hown, trivial⟩
    rw [hmoved]
    simp [State.popped, ConsumerPc.inHand]
  | some next => exact ⟨hseg, hnodup, htail, hvalues, hmoved, hprod, hown, rfl, d, hn⟩

private theorem inv_moveData {head next : Nat} (h : s.Inv cells)
    (hc : s.consumer = .moveData head next) (ht : s.stepConsumer = some t) :
    ∃ cells', t.Inv cells' := by
  have hchain := h.nodup_chain
  obtain ⟨hseg, hnodup, htail, ⟨rest, hvalues, hcells⟩, hmoved, hprod, hown, hat⟩ := h
  simp only [hc] at hnodup hcells hmoved hprod hat
  obtain ⟨rfl, d, hnext⟩ := hat
  obtain ⟨v, cells, rfl⟩ := hseg.eq_cons_of_next hnext
  simp only [State.stepConsumer, hc, Option.map_eq_some_iff] at ht
  obtain ⟨n, hn, rfl⟩ := ht
  have hv : n.data = v := by
    have := hseg.2.1
    rw [hn] at this
    exact Option.some.inj this
  have hne : s.head ≠ next := by
    rw [List.map_cons, List.nodup_cons] at hchain
    exact fun h ↦ hchain.1 (h ▸ List.mem_cons_self)
  refine ⟨(next, none) :: cells, hseg.moveData hchain hn, hnodup, htail, ?_, ?_, ?_, hown, rfl, d,
    ?_⟩
  · -- The data moved out is the first value of the remaining ones; it leaves a hole.
    refine ⟨cells.map Prod.snd, ?_, rfl⟩
    change s.values = s.moved ++ [n.data] ++ _
    rw [hvalues, hv, List.append_assoc]
    exact congrArg _ hcells.symm
  · change s.moved ++ [n.data] = s.popped ++ [n.data]
    rw [hmoved]
    simp [ConsumerPc.inHand]
  · intro i
    have hi := hprod i
    change (s.producers i).At _ _ _
    cases hpi : s.producers i with
    | exchange item node =>
      rw [hpi] at hi
      refine ⟨?_, hi.2⟩
      change Function.update s.heap next _ node = _
      rw [Function.update_of_ne]
      · exact hi.1
      · rintro rfl
        exact hi.2 (by simp)
    | link node prev =>
      rw [hpi] at hi
      obtain ⟨hadj, e, he⟩ := hi
      refine ⟨hadj, ?_⟩
      by_cases hp : prev = next
      · rw [hp, hn] at he
        cases he
        exact ⟨none, by rw [hp]; exact Function.update_self _ _ _⟩
      · exact ⟨e, (Function.update_of_ne hp _ _).trans he⟩
    | _ => trivial
  · change Function.update s.heap next _ s.head = _
    rw [Function.update_of_ne hne]
    exact hnext

private theorem inv_storeHead {head next : Nat} {item : Option α} (h : s.Inv cells)
    (hc : s.consumer = .storeHead head next item) (ht : s.stepConsumer = some t) :
    ∃ cells', t.Inv cells' := by
  obtain ⟨hseg, hnodup, htail, ⟨rest, hvalues, hcells⟩, hmoved, hprod, hown, hat⟩ := h
  simp only [hc] at hnodup hcells hmoved hprod hat
  obtain ⟨rfl, d, hnext⟩ := hat
  obtain ⟨v, cells, rfl⟩ := hseg.eq_cons_of_next hnext
  simp only [State.stepConsumer, hc] at ht
  cases ht
  refine ⟨cells, hseg.2.2, hnodup, ?_, ⟨rest, hvalues, ?_⟩, hmoved, ?_, hown, _, hnext⟩
  · rw [List.map_cons, List.getLast?_cons_cons] at htail
    exact htail
  · exact (List.cons.inj hcells).2
  · intro i
    have hi := hprod i
    change (s.producers i).At _ _ _
    cases hpi : s.producers i with
    | exchange x node =>
      rw [hpi] at hi
      exact hi
    | link node prev =>
      rw [hpi] at hi
      obtain ⟨hadj, e, he⟩ := hi
      refine ⟨?_, e, he⟩
      -- The old head has its link, so no producer is stopped behind it.
      rw [List.map_cons, List.infix_cons_iff] at hadj
      rcases hadj with hpre | hinf
      · rw [List.cons_prefix_cons] at hpre
        rw [hpre.1, hnext] at he
        cases he
      · exact hinf
    | _ => trivial

private theorem inv_delete {head : Nat} {item : Option α} (h : s.Inv cells)
    (hc : s.consumer = .delete head item) (ht : s.stepConsumer = some t) : t.Inv cells := by
  obtain ⟨hseg, hnodup, htail, hvalues, hmoved, hprod, hown, -⟩ := h
  simp only [hc] at hnodup hvalues hmoved hprod
  simp only [State.stepConsumer, hc] at ht
  cases ht
  have hout : head ∉ s.head :: cells.map Prod.fst := (List.nodup_cons.mp hnodup).1
  refine ⟨?_, (List.nodup_cons.mp hnodup).2, htail, hvalues, hmoved, ?_, hown, trivial⟩
  · apply hseg.congr _ fun _ _ _ h ↦ h
    intro x hx
    apply Function.update_of_ne
    rintro rfl
    exact hout hx
  · intro i
    have hi := hprod i
    change (s.producers i).At (Function.update s.heap head none) [] _
    have hi' : (s.producers i).At s.heap [] (s.head :: cells.map Prod.fst) := by
      cases hpi : s.producers i with
      | exchange x node =>
        rw [hpi] at hi
        exact ⟨hi.1, fun hm ↦ hi.2 (List.mem_cons_of_mem _ hm)⟩
      | link node prev =>
        rw [hpi] at hi
        exact hi
      | _ => trivial
    apply hi'.update
    · intro x hpi
      rw [hpi] at hi
      exact hi.2 List.mem_cons_self
    · intro node hpi
      rw [hpi] at hi
      exact hout (hi.1.subset List.mem_cons_self)

private theorem inv_fetchSub {item : Option α} (h : s.Inv cells)
    (hc : s.consumer = .fetchSub item) (ht : s.stepConsumer = some t) : t.Inv cells := by
  obtain ⟨hseg, hnodup, htail, hvalues, hmoved, hprod, hown, -⟩ := h
  simp only [hc] at hnodup hvalues hmoved hprod
  simp only [State.stepConsumer, hc] at ht
  cases ht
  refine ⟨hseg, hnodup, htail, hvalues, ?_, hprod, hown, trivial⟩
  change s.moved = (s.returns ++ [some item]).filterMap id ++ []
  rw [hmoved, List.filterMap_append, List.append_nil]
  rfl

/-- Every step of the consumer keeps the list in order. -/
theorem State.Inv.stepConsumer (h : s.Inv cells) (ht : s.stepConsumer = some t) :
    ∃ cells', t.Inv cells' := by
  cases hc : s.consumer with
  | idle =>
    obtain ⟨hseg, hnodup, htail, hvalues, hmoved, hprod, hown, -⟩ := h
    simp only [hc] at hnodup hvalues hmoved hprod
    simp only [State.stepConsumer, hc] at ht
    cases ht
    exact ⟨cells, hseg, hnodup, htail, hvalues, hmoved, hprod, hown, rfl⟩
  | loadNext head => exact ⟨cells, inv_loadNext h hc ht⟩
  | moveData head next => exact inv_moveData h hc ht
  | storeHead head next item => exact inv_storeHead h hc ht
  | delete head item => exact ⟨cells, inv_delete h hc ht⟩
  | fetchSub item => exact ⟨cells, inv_fetchSub h hc ht⟩

end Consumer

/-- Every step of any thread keeps the list in the order of the exchanges. -/
theorem State.Inv.step [DecidableEq ι] {capacity : Nat} {s t : State ι α} {l : Label ι α}
    {cells : List (Nat × Option α)} (h : s.Inv cells) (ht : s.step capacity l = some t) :
    ∃ cells', t.Inv cells' := by
  cases l with
  | callPush i item =>
    simp only [State.step] at ht
    split at ht
    · next hi =>
      cases ht
      exact ⟨cells, inv_callPush capacity item h hi⟩
    · cases ht
  | alloc i node =>
    simp only [State.step] at ht
    split at ht
    · next item hi hfree =>
      cases ht
      exact ⟨cells, inv_alloc h hi hfree⟩
    · cases ht
  | producer i =>
    simp only [State.step, State.stepProducer] at ht
    split at ht
    · cases ht
    · cases ht
    · next item node hi =>
      cases ht
      exact ⟨_, inv_exchange h hi⟩
    · next node prev hi => exact ⟨cells, inv_link h hi ht⟩
    · next hi =>
      cases ht
      exact ⟨cells, inv_fetchAdd h hi⟩
  | consumer => exact h.stepConsumer ht

/-- In every reachable state the list is in the order of the exchanges. -/
theorem State.Inv.of_reachable [DecidableEq ι] {capacity dummy : Nat} {s : State ι α}
    (h : (threads ι α capacity dummy).Reachable s) : ∃ cells, s.Inv cells := by
  induction h with
  | start => exact ⟨[], State.Inv.initial dummy⟩
  | next _ _ hs ih =>
    obtain ⟨cells, hi⟩ := ih
    exact hi.step hs

/-! ### What remains is popped in order -/

/-- The exchanged values that no `pop` has returned. -/
def State.outstanding (s : State ι α) : List (Option α) := s.values.drop s.popped.length

/-- The exchanged values: those popped, the one in the consumer's hands, and the rest. -/
theorem State.Inv.values_eq {s : State ι α} {cells : List (Nat × Option α)}
    (h : s.Inv cells) : ∃ rest, s.values = s.popped ++ (s.consumer.inHand ++ rest) ∧
      s.outstanding = s.consumer.inHand ++ rest ∧
      cells.map Prod.snd = s.consumer.hole ++ rest := by
  obtain ⟨rest, hvalues, hcells⟩ := h.values
  rw [h.moved, List.append_assoc] at hvalues
  refine ⟨rest, hvalues, ?_, hcells⟩
  rw [State.outstanding, hvalues, List.drop_left]

/-- How many accesses of a `pop` the consumer has made. -/
def ConsumerPc.accesses : ConsumerPc α → Nat
  | .idle => 0
  | .loadNext _ => 1
  | .moveData _ _ => 2
  | .storeHead _ _ _ => 3
  | .delete _ _ => 4
  | .fetchSub _ => 5

/-- The accesses left until a `pop` finds the list empty, six for each outstanding value. -/
def State.accessesLeft (s : State ι α) : Nat :=
  6 * s.outstanding.length + 2 - s.consumer.accesses

private theorem accessesLeft_next {s t : State ι α} (hout : t.outstanding = s.outstanding)
    (hnext : t.consumer.accesses = s.consumer.accesses + 1)
    (hleft : s.consumer.accesses < 6 * s.outstanding.length + 2) :
    t.accessesLeft + 1 = s.accessesLeft := by
  unfold State.accessesLeft
  rw [hout, hnext]
  omega

private theorem State.Inv.outstanding_of_inHand {s : State ι α} {cells : List (Nat × Option α)}
    (h : s.Inv cells) {item : Option α} (hitem : s.consumer.inHand = [item]) :
    s.outstanding = item :: s.values.drop ((s.returns ++ [some item]).filterMap id).length := by
  obtain ⟨rest, hvalues, hout, -⟩ := h.values_eq
  have hpopped : (s.returns ++ [some item]).filterMap id = s.popped ++ [item] := by
    rw [List.filterMap_append]
    rfl
  rw [hitem] at hvalues hout
  rw [hpopped, hout, hvalues, ← List.append_assoc, List.drop_left]
  rfl

private theorem State.Inv.outstanding_pos {s : State ι α} {c : Nat × Option α}
    {cells : List (Nat × Option α)} (h : s.Inv (c :: cells)) (hhole : s.consumer.hole = []) :
    0 < s.outstanding.length := by
  obtain ⟨rest, -, hout, hcells⟩ := h.values_eq
  rw [hhole, List.nil_append] at hcells
  rw [hout, ← hcells, List.length_append, List.map_cons, List.length_cons]
  omega

/-- One access of the consumer while no link is missing: it finds the list empty and has
returned everything, or it is one access nearer to that. -/
theorem State.Inv.drain_step {s : State ι α} {cells : List (Nat × Option α)} (h : s.Inv cells)
    (hlinked : ∀ i node prev, s.producers i ≠ .link node prev) :
    ∃ t, s.stepConsumer = some t ∧ t.exchanged = s.exchanged ∧ t.producers = s.producers ∧
      (s.accessesLeft = 1 ∧ s.outstanding = [] ∧ t.consumer = .idle ∧
        t.returns = s.returns ++ [none] ∨
      t.accessesLeft + 1 = s.accessesLeft ∧
        t.returns ++ t.outstanding.map some = s.returns ++ s.outstanding.map some) := by
  have hat := h.consumer
  cases hc : s.consumer with
  | idle =>
    refine ⟨{ s with consumer := .loadNext s.head }, by rw [State.stepConsumer, hc], rfl, rfl,
      .inr ⟨accessesLeft_next rfl (by rw [hc]; rfl) ?_, rfl⟩⟩
    rw [hc, ConsumerPc.accesses]
    omega
  | loadNext head =>
    rw [hc] at hat
    cases hat
    have hseg := h.segment
    cases cells with
    | nil =>
      obtain ⟨d, hd⟩ := hseg
      obtain ⟨rest, -, hout, hcells⟩ := h.values_eq
      have hempty : s.outstanding = [] := by
        rw [hc] at hout hcells
        rw [hout]
        exact hcells.symm
      refine ⟨{ s with consumer := .idle, returns := s.returns ++ [none] }, ?_, rfl, rfl,
        .inl ⟨?_, hempty, rfl, rfl⟩⟩
      · rw [State.stepConsumer, hc]
        simp only [hd, Option.map_some]
      · rw [State.accessesLeft, hempty, hc]
        rfl
    | cons c cells =>
      obtain ⟨⟨d, hd | ⟨-, i, hi⟩⟩, -⟩ := hseg
      · refine ⟨{ s with consumer := .moveData s.head c.1 }, ?_, rfl, rfl,
          .inr ⟨accessesLeft_next rfl (by rw [hc]; rfl) ?_, rfl⟩⟩
        · rw [State.stepConsumer, hc]
          simp only [hd, Option.map_some]
        · have hpos := h.outstanding_pos (by rw [hc]; rfl)
          rw [hc, ConsumerPc.accesses]
          omega
      · exact absurd hi (hlinked i _ _)
  | moveData head next =>
    rw [hc] at hat
    obtain ⟨rfl, d, hd⟩ := hat
    obtain ⟨v, cells, rfl⟩ := h.segment.eq_cons_of_next hd
    obtain ⟨n, hn⟩ := h.segment.2.2.live_head
    refine ⟨{ s with
      heap := Function.update s.heap next (some { n with data := none })
      consumer := .storeHead s.head next n.data
      moved := s.moved ++ [n.data] }, ?_, rfl, rfl,
      .inr ⟨accessesLeft_next rfl (by rw [hc]; rfl) ?_, rfl⟩⟩
    · rw [State.stepConsumer, hc]
      simp only [hn, Option.map_some]
    · have hpos := h.outstanding_pos (by rw [hc]; rfl)
      rw [hc, ConsumerPc.accesses]
      omega
  | storeHead head next item =>
    have hout := h.outstanding_of_inHand (by rw [hc]; rfl)
    refine ⟨{ s with head := next, consumer := .delete head item, advanced := s.advanced + 1 },
      by rw [State.stepConsumer, hc], rfl, rfl,
      .inr ⟨accessesLeft_next rfl (by rw [hc]; rfl) ?_, rfl⟩⟩
    rw [hc, ConsumerPc.accesses, hout, List.length_cons]
    omega
  | delete head item =>
    have hout := h.outstanding_of_inHand (by rw [hc]; rfl)
    refine ⟨{ s with heap := Function.update s.heap head none, consumer := .fetchSub item },
      by rw [State.stepConsumer, hc], rfl, rfl,
      .inr ⟨accessesLeft_next rfl (by rw [hc]; rfl) ?_, rfl⟩⟩
    rw [hc, ConsumerPc.accesses, hout, List.length_cons]
    omega
  | fetchSub item =>
    -- The value in hand moves from the outstanding ones to the returned ones.
    have hout := h.outstanding_of_inHand (by rw [hc]; rfl)
    refine ⟨{ s with
      size := s.size - 1, consumer := .idle, returns := s.returns ++ [some item]
      subtracted := s.subtracted + 1 }, by rw [State.stepConsumer, hc], rfl, rfl, .inr ⟨?_, ?_⟩⟩
    · rw [State.accessesLeft, State.accessesLeft, hout, hc, List.length_cons]
      change 6 * (s.values.drop ((s.returns ++ [some item]).filterMap id).length).length + 2 - 0 +
        1 = _
      rw [ConsumerPc.accesses]
      omega
    · rw [hout, List.map_cons, List.append_assoc]
      rfl

/-- While no link is missing, the consumer by itself returns the outstanding values in
order and then finds the list empty. -/
theorem drain [DecidableEq ι] (capacity dummy : Nat) {s : State ι α}
    {cells : List (Nat × Option α)} (h : s.Inv cells)
    (hlinked : ∀ i node prev, s.producers i ≠ .link node prev) :
    ∃ t, (threads ι α capacity dummy).run s (List.replicate s.accessesLeft .consumer) = some t ∧
      t.consumer = .idle ∧ t.exchanged = s.exchanged ∧
      t.returns = s.returns ++ s.outstanding.map some ++ [none] := by
  generalize hn : s.accessesLeft = n
  induction n generalizing s cells with
  | zero =>
    obtain ⟨t, -, -, -, hend | hnext⟩ := h.drain_step hlinked
    · omega
    · omega
  | succ n ih =>
    obtain ⟨t, ht, hex, hprod, hend | ⟨hleft, hret⟩⟩ := h.drain_step hlinked
    · obtain ⟨hone, hempty, hidle, hret⟩ := hend
      obtain rfl : n = 0 := by omega
      refine ⟨t, ?_, hidle, hex, ?_⟩
      · rw [List.replicate_one, Machine.run_cons_of_step ht]
        rfl
      · rw [hret, hempty, List.map_nil, List.append_nil]
    · obtain ⟨cells', ht'⟩ := h.stepConsumer ht
      obtain ⟨u, hu, hidle, huex, huret⟩ :=
        ih ht' (fun i ↦ by rw [hprod]; exact hlinked i) (by omega)
      refine ⟨u, ?_, hidle, huex.trans hex, ?_⟩
      · rw [List.replicate_succ, Machine.run_cons_of_step ht]
        exact hu
      · rw [huret, hret]

end EventStreamCore.Queues.MpscQueue
