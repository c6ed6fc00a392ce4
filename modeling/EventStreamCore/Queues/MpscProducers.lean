import EventStreamCore.Queues.Mpsc

/-!
# The list while producers push

The list from `head_` to `tail_` in the states reached by the threads of `mpsc.hpp`: any
number of links may still be missing, each promised by a producer stopped between its
`tail_.exchange` and its store to `prev->next`, and the order of the nodes is the order of
the exchanges. Here the accesses of `push`, `mpsc.hpp:36–56`.
-/

namespace EventStreamCore.Queues.MpscQueue
open EventStreamCore.Lib

universe u v

variable {ι : Type v} {α : Type u}

/-- The node a producer has allocated and not yet linked. -/
def ProducerPc.owns (node : Nat) : ProducerPc α → Prop
  | .exchange _ n => n = node
  | .link n _ => n = node
  | _ => False

/-- The old dummy node the consumer is about to free. -/
def ConsumerPc.garbage : ConsumerPc α → List Nat
  | .delete head _ => [head]
  | _ => []

/-- The value moved out and not yet returned. -/
def ConsumerPc.inHand : ConsumerPc α → List (Option α)
  | .storeHead _ _ item => [item]
  | .delete _ item => [item]
  | .fetchSub item => [item]
  | _ => []

/-- The moved-from data of the node that is about to become the dummy. -/
def ConsumerPc.hole : ConsumerPc α → List (Option α)
  | .storeHead _ _ _ => [none]
  | _ => []

/-- Some producer is about to link `node` behind `prev`. -/
def State.promised (s : State ι α) (prev node : Nat) : Prop :=
  ∃ i, s.producers i = .link node prev

/-- What a producer knows of the list at addresses `chain`, `garbage` being freed. -/
def ProducerPc.At (heap : Heap α) (garbage chain : List Nat) : ProducerPc α → Prop
  | .exchange item node => heap node = some ⟨some item, none⟩ ∧ node ∉ garbage ++ chain
  | .link node prev => [prev, node] <:+: chain ∧ ∃ d, heap prev = some ⟨d, none⟩
  | _ => True

/-- What the consumer knows of the list that starts at `head`. -/
def ConsumerPc.At (heap : Heap α) (head : Nat) : ConsumerPc α → Prop
  | .loadNext h => h = head
  | .moveData h n => h = head ∧ ∃ d, heap h = some ⟨d, some n⟩
  | .storeHead h n _ => h = head ∧ ∃ d, heap h = some ⟨d, some n⟩
  | .delete h _ => ∃ n, heap h = some n
  | _ => True

/-- The list from `head` to `tail` consists of the nodes of the exchanges whose values have
not been moved out, in order, and each thread's local pointers are still right. -/
structure State.Inv (s : State ι α) (cells : List (Nat × Option α)) : Prop where
  segment : Segment s.heap s.promised s.head cells
  nodup : (s.consumer.garbage ++ s.head :: cells.map Prod.fst).Nodup
  tail : (s.head :: cells.map Prod.fst).getLast? = some s.tail
  values : ∃ rest, s.values = s.moved ++ rest ∧ cells.map Prod.snd = s.consumer.hole ++ rest
  moved : s.moved = s.popped ++ s.consumer.inHand
  producers : ∀ i, (s.producers i).At s.heap s.consumer.garbage (s.head :: cells.map Prod.fst)
  owners : ∀ i j node, (s.producers i).owns node → (s.producers j).owns node → i = j
  consumer : s.consumer.At s.heap s.head

/-- A producer's knowledge survives a change at an address it does not hold. -/
theorem ProducerPc.At.update {heap : Heap α} {garbage chain : List Nat} {pc : ProducerPc α}
    (h : pc.At heap garbage chain) {x : Nat} {n : Option (Node α)}
    (hx : ∀ item, pc ≠ .exchange item x) (hl : ∀ node, pc ≠ .link node x) :
    pc.At (Function.update heap x n) garbage chain := by
  cases pc with
  | exchange item node =>
    have hne : node ≠ x := fun he ↦ hx item (congrArg _ he)
    refine ⟨?_, h.2⟩
    rw [Function.update_of_ne hne]
    exact h.1
  | link node prev =>
    have hne : prev ≠ x := fun he ↦ hl node (congrArg _ he)
    refine ⟨h.1, ?_⟩
    rw [Function.update_of_ne hne]
    exact h.2
  | _ => trivial

/-- The consumer's knowledge survives a write to a node that has no link yet. -/
theorem ConsumerPc.At.update {heap : Heap α} {head : Nat} {pc : ConsumerPc α}
    (h : pc.At heap head) {x : Nat} (hx : ∀ n, heap x = some n → n.next = none) (n : Node α) :
    pc.At (Function.update heap x (some n)) head := by
  have hlinked : ∀ a b, (∃ d, heap a = some ⟨d, some b⟩) →
      ∃ d, Function.update heap x (some n) a = some ⟨d, some b⟩ := by
    rintro a b ⟨d, hd⟩
    refine ⟨d, ?_⟩
    rw [Function.update_of_ne]
    · exact hd
    · rintro rfl
      cases hx _ hd
  cases pc with
  | loadNext a => exact h
  | moveData a b => exact ⟨h.1, hlinked a b h.2⟩
  | storeHead a b item => exact ⟨h.1, hlinked a b h.2⟩
  | delete a item =>
    by_cases ha : a = x
    · exact ⟨n, by rw [ha, Function.update_self]⟩
    · obtain ⟨m, hm⟩ := h
      exact ⟨m, by rw [Function.update_of_ne ha]; exact hm⟩
  | _ => trivial

namespace State.Inv

variable {s : State ι α} {cells : List (Nat × Option α)}

theorem nodup_chain (h : s.Inv cells) : (s.head :: cells.map Prod.fst).Nodup :=
  List.Nodup.of_append_right h.nodup

private theorem live (h : s.Inv cells) {x : Nat}
    (hx : x ∈ s.consumer.garbage ++ s.head :: cells.map Prod.fst) : ∃ n, s.heap x = some n := by
  rcases List.mem_append.mp hx with hx | hx
  · have hc := h.consumer
    cases hs : s.consumer with
    | delete head item =>
      rw [hs] at hx hc
      rw [List.mem_singleton.mp hx]
      exact hc
    | _ =>
      rw [hs] at hx
      cases hx
  · exact h.segment.live hx

private theorem exchange_at (h : s.Inv cells) {i : ι} {item : α} {node : Nat}
    (hi : s.producers i = .exchange item node) : s.heap node = some ⟨some item, none⟩ ∧
      node ∉ s.consumer.garbage ++ s.head :: cells.map Prod.fst := by
  have hat := h.producers i
  rw [hi] at hat
  exact hat

private theorem link_at (h : s.Inv cells) {i : ι} {node prev : Nat}
    (hi : s.producers i = .link node prev) : [prev, node] <:+: s.head :: cells.map Prod.fst ∧
      ∃ d, s.heap prev = some ⟨d, none⟩ := by
  have hat := h.producers i
  rw [hi] at hat
  exact hat

/-- A new queue holds nothing. -/
theorem initial (dummy : Nat) : (State.initial dummy : State ι α).Inv [] where
  segment := by
    refine ⟨none, ?_⟩
    simp only [State.initial, Function.update_self]
  nodup := List.nodup_singleton _
  tail := rfl
  values := ⟨[], rfl, rfl⟩
  moved := rfl
  producers _ := trivial
  owners _ _ _ := nofun
  consumer := trivial

end State.Inv

section Producers

variable [DecidableEq ι] {s : State ι α} {cells : List (Nat × Option α)} {i : ι}

private theorem promised_setProducer {pc : ProducerPc α} {prev node : Nat}
    (h : s.promised prev node) (hi : s.producers i ≠ .link node prev) :
    (s.setProducer i pc).promised prev node := by
  obtain ⟨j, hj⟩ := h
  refine ⟨j, (s.setProducer_of_ne ?_ pc).trans hj⟩
  rintro rfl
  exact hi hj

private theorem owners_setProducer {pc : ProducerPc α}
    (h : ∀ j k node, (s.producers j).owns node → (s.producers k).owns node → j = k)
    (hpc : ∀ node, pc.owns node → ∀ j, (s.producers j).owns node → j = i) (j k : ι) (node : Nat)
    (hj : ((s.setProducer i pc).producers j).owns node)
    (hk : ((s.setProducer i pc).producers k).owns node) : j = k := by
  by_cases hji : j = i
  · by_cases hki : k = i
    · rw [hji, hki]
    · rw [hji, s.setProducer_self] at hj
      rw [s.setProducer_of_ne hki] at hk
      exact absurd (hpc node hj k hk) hki
  · rw [s.setProducer_of_ne hji] at hj
    by_cases hki : k = i
    · rw [hki, s.setProducer_self] at hk
      exact absurd (hpc node hk j hj) hji
    · rw [s.setProducer_of_ne hki] at hk
      exact h j k node hj hk

private theorem producers_setProducer {pc : ProducerPc α} {heap : Heap α}
    {garbage chain : List Nat} (hpc : pc.At heap garbage chain)
    (h : ∀ j, j ≠ i → (s.producers j).At heap garbage chain) (j : ι) :
    ((s.setProducer i pc).producers j).At heap garbage chain := by
  by_cases hj : j = i
  · rw [hj, s.setProducer_self]
    exact hpc
  · rw [s.setProducer_of_ne hj]
    exact h j hj

/-- A producer that moves between two points at which it owns no node changes nothing. -/
theorem State.Inv.setProducer (h : s.Inv cells) {pc : ProducerPc α}
    (hold : ∀ node prev, s.producers i ≠ .link node prev) (hnew : ∀ node, ¬ pc.owns node) :
    (s.setProducer i pc).Inv cells := by
  refine ⟨?_, h.nodup, h.tail, h.values, h.moved, ?_, ?_, h.consumer⟩
  · apply h.segment.congr fun _ _ ↦ rfl
    intro x _ y hp
    exact promised_setProducer hp (hold y x)
  · apply producers_setProducer
    · cases pc with
      | exchange item node => exact absurd rfl (hnew node)
      | link node prev => exact absurd rfl (hnew node)
      | _ => trivial
    · intro j _
      exact h.producers j
  · apply owners_setProducer h.owners
    intro node hown
    exact absurd hown (hnew node)

theorem inv_callPush (capacity : Nat) (item : α) (h : s.Inv cells)
    (hi : s.producers i = .idle) : (s.callPush capacity i item).Inv cells := by
  unfold State.callPush
  split
  · exact ⟨h.segment, h.nodup, h.tail, h.values, h.moved, h.producers, h.owners, h.consumer⟩
  · have hs : (s.setProducer i (.alloc item)).Inv cells :=
      h.setProducer (fun _ _ ↦ by rw [hi]; exact nofun) fun _ ↦ not_false
    exact ⟨hs.segment, hs.nodup, hs.tail, hs.values, hs.moved, hs.producers, hs.owners,
      hs.consumer⟩

theorem inv_fetchAdd (h : s.Inv cells) (hi : s.producers i = .fetchAdd) :
    (s.fetchAdd i).Inv cells := by
  have hs : (s.setProducer i .idle).Inv cells :=
    h.setProducer (fun _ _ ↦ by rw [hi]; exact nofun) fun _ ↦ not_false
  exact ⟨hs.segment, hs.nodup, hs.tail, hs.values, hs.moved, hs.producers, hs.owners, hs.consumer⟩

theorem inv_alloc {item : α} {node : Nat} (h : s.Inv cells)
    (hi : s.producers i = .alloc item) (hfree : s.heap node = none) :
    (s.alloc i item node).Inv cells := by
  have hout : node ∉ s.consumer.garbage ++ s.head :: cells.map Prod.fst := by
    intro hm
    obtain ⟨n, hn⟩ := h.live hm
    rw [hfree] at hn
    cases hn
  have hexchange : ∀ j x, s.producers j ≠ .exchange x node := by
    intro j x hj
    have hn := (h.exchange_at hj).1
    rw [hfree] at hn
    cases hn
  refine ⟨?_, h.nodup, h.tail, h.values, h.moved, ?_, ?_, ?_⟩
  · apply h.segment.congr
    · intro x hx
      apply Function.update_of_ne
      rintro rfl
      exact hout (List.mem_append_right _ hx)
    · intro x _ y hp
      exact promised_setProducer hp (by rw [hi]; exact nofun)
  · apply producers_setProducer
    · exact ⟨Function.update_self _ _ _, hout⟩
    · intro j _
      apply (h.producers j).update (hexchange j)
      intro x hj
      obtain ⟨hadj, -⟩ := h.link_at hj
      exact hout (List.mem_append_right _ (hadj.subset List.mem_cons_self))
  · apply owners_setProducer h.owners
    rintro x rfl j hown
    cases hj : s.producers j with
    | exchange y n =>
      rw [hj] at hown
      cases hown
      exact absurd hj (hexchange j y)
    | link n prev =>
      rw [hj] at hown
      cases hown
      obtain ⟨hadj, -⟩ := h.link_at hj
      exact absurd (List.mem_append_right _ (hadj.subset (by simp))) hout
    | _ =>
      rw [hj] at hown
      cases hown
  · apply h.consumer.update
    intro n hn
    rw [hfree] at hn
    cases hn

theorem inv_exchange {item : α} {node : Nat} (h : s.Inv cells)
    (hi : s.producers i = .exchange item node) :
    (s.exchange i item node).Inv (cells ++ [(node, some item)]) := by
  obtain ⟨hnode, hout⟩ := h.exchange_at hi
  obtain ⟨d, hlast⟩ := h.segment.next_last h.tail
  have hchain : s.head :: (cells ++ [(node, some item)]).map Prod.fst =
      (s.head :: cells.map Prod.fst) ++ [node] := by simp
  refine ⟨?_, ?_, ?_, ?_, h.moved, ?_, ?_, h.consumer⟩
  · refine Segment.concat ?_ h.tail ⟨i, s.setProducer_self i _⟩ hnode
    apply h.segment.congr fun _ _ ↦ rfl
    intro x _ y hp
    exact promised_setProducer hp (by rw [hi]; exact nofun)
  · change (s.consumer.garbage ++ s.head :: (cells ++ [(node, some item)]).map Prod.fst).Nodup
    rw [hchain, ← List.append_assoc]
    exact List.Nodup.append h.nodup (List.nodup_singleton node) (by simpa using hout)
  · change (s.head :: (cells ++ [(node, some item)]).map Prod.fst).getLast? = some node
    rw [hchain, List.getLast?_concat]
  · obtain ⟨rest, hvalues, hcells⟩ := h.values
    refine ⟨rest ++ [some item], ?_, ?_⟩
    · change (s.exchanged ++ [(i, item)]).map _ = s.moved ++ (rest ++ [some item])
      rw [List.map_append, ← List.append_assoc, ← hvalues]
      rfl
    · rw [List.map_append, hcells, List.append_assoc]
      rfl
  · change ∀ j, ((s.setProducer i _).producers j).At s.heap s.consumer.garbage
      (s.head :: (cells ++ [(node, some item)]).map Prod.fst)
    rw [hchain]
    apply producers_setProducer
    · refine ⟨?_, d, hlast⟩
      obtain ⟨front, hfront⟩ := List.getLast?_eq_some_iff.mp h.tail
      rw [hfront, List.append_assoc]
      exact (List.suffix_append front _).isInfix
    · intro j hj
      cases hpj : s.producers j with
      | exchange x n =>
        obtain ⟨hn, hnout⟩ := h.exchange_at hpj
        refine ⟨hn, ?_⟩
        rw [← List.append_assoc, List.mem_append, List.mem_singleton]
        rintro (hm | rfl)
        · exact hnout hm
        · exact hj (h.owners j i n (by rw [hpj]; rfl) (by rw [hi]; rfl))
      | link n prev =>
        obtain ⟨hadj, hprev⟩ := h.link_at hpj
        exact ⟨hadj.trans (List.prefix_append _ _).isInfix, hprev⟩
      | _ => trivial
  · apply owners_setProducer h.owners
    rintro x rfl j hown
    exact h.owners j i node hown (by rw [hi]; rfl)

private theorem adjacent_unique {prev b c : Nat} {chain : List Nat} (h : chain.Nodup)
    (hb : [prev, b] <:+: chain) (hc : [prev, c] <:+: chain) : b = c := by
  induction chain with
  | nil =>
    have := hb.length_le
    simp at this
  | cons x chain ih =>
    rw [List.nodup_cons] at h
    rw [List.infix_cons_iff] at hb hc
    rcases hb with hb | hb <;> rcases hc with hc | hc
    · obtain ⟨l, hl⟩ := hb
      obtain ⟨r, hr⟩ := hc
      rw [← hl] at hr
      cases hr
      rfl
    · rw [List.cons_prefix_cons] at hb
      exact absurd (hc.subset (hb.1 ▸ List.mem_cons_self)) h.1
    · rw [List.cons_prefix_cons] at hc
      exact absurd (hb.subset (hc.1 ▸ List.mem_cons_self)) h.1
    · exact ih h.2 hb hc

theorem inv_link {node prev : Nat} {t : State ι α} (h : s.Inv cells)
    (hi : s.producers i = .link node prev) (ht : s.link i node prev = some t) : t.Inv cells := by
  obtain ⟨hadj, d, hprev⟩ := h.link_at hi
  rw [State.link, hprev] at ht
  cases ht
  have hmem : prev ∈ s.head :: cells.map Prod.fst := hadj.subset List.mem_cons_self
  refine ⟨?_, h.nodup, h.tail, h.values, h.moved, ?_, ?_, ?_⟩
  · apply h.segment.link h.nodup_chain hadj hprev
    intro x y hp
    by_cases hxy : x = prev ∧ y = node
    · exact .inr hxy
    · left
      apply promised_setProducer hp
      rw [hi]
      intro he
      cases he
      exact hxy ⟨rfl, rfl⟩
  · apply producers_setProducer
    · trivial
    · intro j hj
      apply (h.producers j).update
      · intro x hpj
        exact (h.exchange_at hpj).2 (List.mem_append_right _ hmem)
      · intro n hpj
        have hn := adjacent_unique h.nodup_chain (h.link_at hpj).1 hadj
        exact hj (h.owners j i n (by rw [hpj]; rfl) (by rw [hi, hn]; rfl))
  · apply owners_setProducer h.owners
    intro x hown
    cases hown
  · apply h.consumer.update
    intro n hn
    rw [hprev] at hn
    cases hn
    rfl

end Producers

end EventStreamCore.Queues.MpscQueue
