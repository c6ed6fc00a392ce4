import EventStreamCore.Bridge.Provenance

/-!
# What an id identifies

The ids that `createEvent` gives, `src/core/events/event_factory.cpp:32–45`, over all runs of the
engine, in which the threads of the clients create and push events at the same time.
-/

namespace EventStreamCore.Bridge
open EventStreamCore.Lib EventStreamCore.Events EventStreamCore.Storage EventStreamCore.Ingest
open EventStreamCore.Ingest.TcpIngestServer

namespace WireToDisk

/-- Each event has a number of its own, and its id is that number modulo `2^32`. -/
structure Numbered (s : WireToDisk) : Prop where
  count : s.numbers.length = s.ledger.accepted.length
  nodup : s.numbers.Nodup
  less : ∀ number ∈ s.numbers, number < s.created
  factory : s.factory.globalEventId.toNat = s.created % 2 ^ 64
  ids : ∀ (n number : Nat) evt, s.numbers[n]? = some number → s.ledger.accepted[n]? = some evt →
    evt.header.id.toNat = number % 2 ^ 32
  waiting : ∀ k number evt, s.turns k = .created number evt →
    number < s.created ∧ number ∉ s.numbers ∧ evt.header.id.toNat = number % 2 ^ 32
  distinct : ∀ k k' number evt evt', s.turns k = .created number evt →
    s.turns k' = .created number evt' → k = k'

variable {topicTable : Option TopicTable} {s t : WireToDisk}

/-- A step that creates no event and pushes none. -/
private theorem Numbered.of_eq (h : s.Numbered) (hnumbers : t.numbers = s.numbers)
    (haccepted : t.ledger.accepted = s.ledger.accepted) (hcreated : t.created = s.created)
    (hfactory : t.factory = s.factory)
    (hturns : ∀ k number evt, t.turns k = .created number evt → s.turns k = .created number evt) :
    t.Numbered := by
  refine ⟨?_, ?_, ?_, ?_, ?_, ?_, ?_⟩
  · rw [hnumbers, haccepted]
    exact h.count
  · rw [hnumbers]
    exact h.nodup
  · rw [hnumbers, hcreated]
    exact h.less
  · rw [hfactory, hcreated]
    exact h.factory
  · rw [hnumbers, haccepted]
    exact h.ids
  · rw [hnumbers, hcreated]
    exact fun k number evt hk ↦ h.waiting k number evt (hturns k number evt hk)
  · exact fun k k' number evt evt' hk hk' ↦
      h.distinct k k' number evt evt' (hturns k number evt hk) (hturns k' number evt' hk')

private theorem numbered_create {client : Nat} {metadata : List (Bytes × Bytes)}
    {timestamp : UInt64} (h : s.Numbered) (ht : s.create client metadata timestamp = some t) :
    t.Numbered := by
  obtain ⟨frame, -, -, rfl⟩ := create_eq_some ht
  have hid := EventFactory.createEvent_id s.factory (createArgs frame metadata timestamp)
  have hfactory := h.factory
  refine ⟨h.count, h.nodup, fun n hn ↦ Nat.lt_succ_of_lt (h.less n hn), ?_, h.ids, ?_, ?_⟩
  · change (s.factory.globalEventId + 1).toNat = (s.created + 1) % 2 ^ 64
    simp only [UInt64.toNat_add, UInt64.reduceToNat]
    omega
  · intro k number evt hk
    dsimp only at hk ⊢
    by_cases hclient : k = client
    · rw [hclient, Function.update_self] at hk
      cases hk
      refine ⟨Nat.lt_succ_self _, fun hin ↦ Nat.lt_irrefl _ (h.less _ hin), ?_⟩
      rw [hid, hfactory]
      omega
    · rw [Function.update_of_ne hclient] at hk
      obtain ⟨hlt, hnew, hsame⟩ := h.waiting k number evt hk
      exact ⟨Nat.lt_succ_of_lt hlt, hnew, hsame⟩
  · -- the number of the new event is beyond those of all events there have been
    have hnew : ∀ k evt, k ≠ client → s.turns k ≠ .created s.created evt :=
      fun k evt _ hk ↦ Nat.lt_irrefl _ (h.waiting k _ evt hk).1
    intro k k' number evt evt' hk hk'
    dsimp only at hk hk'
    by_cases hclient : k = client
    · by_cases hclient' : k' = client
      · rw [hclient, hclient']
      · rw [hclient, Function.update_self] at hk
        rw [Function.update_of_ne hclient'] at hk'
        cases hk
        exact absurd hk' (hnew k' evt' hclient')
    · rw [Function.update_of_ne hclient] at hk
      by_cases hclient' : k' = client
      · rw [hclient', Function.update_self] at hk'
        cases hk'
        exact absurd hk (hnew k evt hclient)
      · rw [Function.update_of_ne hclient'] at hk'
        exact h.distinct k k' number evt evt' hk hk'

private theorem numbered_push {client : Nat} (h : s.Numbered)
    (ht : s.push topicTable client = some t) : t.Numbered := by
  obtain ⟨number, evt, hturn, rfl⟩ := push_eq_some ht
  obtain ⟨hlt, hnew, hid⟩ := h.waiting client number evt hturn
  have hturns : ∀ k number' evt',
      Function.update s.turns client (.answered !(s.ledger.accepts (some evt)).isEmpty) k =
        .created number' evt' → k ≠ client ∧ s.turns k = .created number' evt' := by
    intro k number' evt' hk
    by_cases hclient : k = client
    · rw [hclient, Function.update_self] at hk
      cases hk
    · rw [Function.update_of_ne hclient] at hk
      exact ⟨hclient, hk⟩
  have hdistinct : ∀ k k' number' evt' evt'',
      Function.update s.turns client (.answered !(s.ledger.accepts (some evt)).isEmpty) k =
        .created number' evt' →
      Function.update s.turns client (.answered !(s.ledger.accepts (some evt)).isEmpty) k' =
        .created number' evt'' → k = k' :=
    fun k k' number' evt' evt'' hk hk' ↦
      h.distinct k k' number' evt' evt'' (hturns k _ _ hk).2 (hturns k' _ _ hk').2
  rcases accepts_some s.ledger evt with hfull | hroom
  · simp only [hfull, List.map_nil, List.append_nil] at hturns hdistinct ⊢
    exact ⟨h.count, h.nodup, h.less, h.factory, h.ids,
      fun k number' evt' hk ↦ h.waiting k number' evt' (hturns k _ _ hk).2, hdistinct⟩
  · simp only [hroom, List.map_singleton] at hturns hdistinct ⊢
    refine ⟨?_, ?_, ?_, h.factory, ?_, ?_, hdistinct⟩
    · rw [List.length_append, List.length_append, h.count]
      rfl
    · apply List.nodup_append.mpr
      refine ⟨h.nodup, List.nodup_singleton _, ?_⟩
      rintro a ha b hb rfl
      rw [List.mem_singleton.mp hb] at ha
      exact hnew ha
    · intro a ha
      rcases List.mem_append.mp ha with hold | hin
      · exact h.less a hold
      · rw [List.mem_singleton.mp hin]
        exact hlt
    · intro n number' evt' hnumber hevt
      by_cases hn : n < s.numbers.length
      · rw [List.getElem?_append_left hn] at hnumber
        rw [List.getElem?_append_left (by rw [← h.count]; exact hn)] at hevt
        exact h.ids n number' evt' hnumber hevt
      · have hle := Nat.le_of_not_lt hn
        rw [List.getElem?_append_right hle, List.getElem?_singleton] at hnumber
        rw [List.getElem?_append_right (by rw [← h.count]; exact hle),
          List.getElem?_singleton] at hevt
        split at hnumber <;> cases hnumber
        split at hevt <;> cases hevt
        exact hid
    · intro k number' evt' hk
      obtain ⟨hclient, hk⟩ := hturns k number' evt' hk
      obtain ⟨hlt', hnew', hid'⟩ := h.waiting k number' evt' hk
      refine ⟨hlt', ?_, hid'⟩
      intro hin
      rcases List.mem_append.mp hin with hold | hlast
      · exact hnew' hold
      · -- the number of the event pushed is no other thread's
        rw [List.mem_singleton.mp hlast] at hk
        exact hclient (h.distinct k client number evt' evt hk hturn)

private theorem numbered_initial {buffer : Fin realtimeCapacity.val → Item} :
    (initial buffer).Numbered where
  count := rfl
  nodup := List.nodup_nil
  less _ hn := absurd hn List.not_mem_nil
  factory := rfl
  ids n number evt hn := by cases hn
  waiting k number evt hk := by cases hk
  distinct k k' number evt evt' hk := by cases hk

/-- Every step of the engine keeps the numbers apart. -/
theorem Numbered.step {l : WireToDiskLabel} (h : s.Numbered)
    (ht : s.step topicTable l = some t) : t.Numbered := by
  cases l with
  | server l =>
    obtain ⟨server, -, -, rfl⟩ := server_eq_some ht
    exact h.of_eq rfl rfl rfl rfl fun _ _ _ ↦ id
  | create client metadata timestamp => exact numbered_create h ht
  | push client => exact numbered_push h ht
  | count client =>
    obtain ⟨accepted, -, rfl⟩ := count_eq_some ht
    exact h.of_eq rfl rfl rfl rfl fun _ _ _ ↦ turns_update (by simp)
  | pipeline l =>
    cases l with
    | tryPush evt => cases ht
    | _ =>
      obtain ⟨ledger, hledger, rfl⟩ := Option.map_eq_some_iff.mp ht
      obtain ⟨evt, hl, -⟩ | ⟨-, -, haccepted⟩ := Ledger.step_cases hledger
      · cases hl
      · exact h.of_eq rfl haccepted rfl rfl fun _ _ _ ↦ id
  | store queueId index write flush =>
    obtain ⟨item, -, rfl⟩ := store_eq_some ht
    exact h.of_eq rfl rfl rfl rfl fun _ _ _ ↦ id
  | flush io =>
    cases ht
    exact h.of_eq rfl rfl rfl rfl fun _ _ _ ↦ id
  | debris bytes =>
    obtain ⟨storage, -, rfl⟩ := Option.map_eq_some_iff.mp ht
    exact h.of_eq rfl rfl rfl rfl fun _ _ _ ↦ id

theorem Numbered.of_reachable {buffer : Fin realtimeCapacity.val → Item}
    (h : (wireToDisk topicTable buffer).Reachable s) : s.Numbered :=
  Machine.Reachable.invariant numbered_initial (fun _ _ _ hi hs ↦ hi.step hs) h

/-- The id of a popped event is its number modulo `2^32`. -/
private theorem Numbered.exists_number (h : s.Numbered) (hinv : s.Inv topicTable) {q : QueueId}
    {item : Item} (hitem : item ∈ s.ledger.pipe.popped q) :
    ∃ number, s.numbers[item.ticket]? = some number ∧ number < s.created ∧
      item.event.header.id.toNat = number % 2 ^ 32 := by
  obtain ⟨evt, hevt, rtPressure, hroute⟩ := hinv.traced.popped q item hitem
  have hlt : item.ticket < s.numbers.length := by
    rw [h.count]
    exact (List.getElem?_eq_some_iff.mp hevt).1
  have hnumber := List.getElem?_eq_getElem hlt
  refine ⟨_, hnumber, h.less _ (List.mem_of_getElem? hnumber), ?_⟩
  rw [(Dispatcher.route_frame hroute).1]
  exact h.ids _ _ evt hnumber hevt

end WireToDisk

/-- An id identifies an event. In every run, with the threads of all clients creating and pushing
events at the same time: two events that have been popped, from the same queue or from different
ones, have the same id only if they are one and the same, as long as no more than `2^32` events
have been created and the UDP server is off. The duplicate check of the transactional processor
rests on this. -/
theorem ids_identify (topicTable : Option TopicTable) (buffer : Fin realtimeCapacity.val → Item)
    (s : WireToDisk) (h : (wireToDisk topicTable buffer).Reachable s) (q q' : QueueId) (i j : Nat)
    (x y : Item) (hx : (s.ledger.pipe.popped q)[i]? = some x)
    (hy : (s.ledger.pipe.popped q')[j]? = some y)
    (hid : x.event.header.id = y.event.header.id) :
    q = q' ∧ i = j ∨ 2 ^ 32 < s.created := by
  have hinv := WireToDisk.Inv.of_reachable h
  have hnumbered := WireToDisk.Numbered.of_reachable h
  obtain ⟨a, ha, hlta, hida⟩ := hnumbered.exists_number hinv (List.mem_of_getElem? hx)
  obtain ⟨b, hb, hltb, hidb⟩ := hnumbered.exists_number hinv (List.mem_of_getElem? hy)
  by_cases hfew : s.created ≤ 2 ^ 32
  · left
    have hsame : a = b := by
      rw [hid, hidb] at hida
      omega
    have hlt : x.ticket < s.numbers.length := (List.getElem?_eq_some_iff.mp ha).1
    have hticket : x.ticket = y.ticket := by
      apply (List.getElem?_inj hlt hnumbered.nodup).mp
      rw [ha, hb, hsame]
    exact hinv.pipe.popped_unique hx hy hticket
  · exact .inr (Nat.lt_of_not_le hfew)

/-- Two clients, of which the one that creates its event later pushes it first. -/
theorem ids_identify_two : ∃ (s : WireToDisk) (x y : Item),
    (wireToDisk none fun _ ↦ ⟨0, ⟨⟨.tcp, .batch, 0, 0, 0, 0, 0⟩, [], [], [], 0⟩⟩).Reachable s ∧
    (s.ledger.pipe.popped .realtime)[0]? = some x ∧
    (s.ledger.pipe.popped .realtime)[1]? = some y ∧ s.numbers = [1, 0] ∧
    x.event.header.id ≠ y.event.header.id := by
  let m := wireToDisk none fun _ ↦ ⟨0, ⟨⟨.tcp, .batch, 0, 0, 0, 0, 0⟩, [], [], [], 0⟩⟩
  have hrun : (m.run m.start
      ([.server .accept, .server .acceptThread, .server .acceptThread, .server .accept,
        .server (.client 0), .server (.client 1),
        .server (.recv 0 (.ok (createEventFrame 4 [116] []))),
        .server (.recv 1 (.ok (createEventFrame 4 [117] []))),
        .create 0 [] 5, .create 1 [] 6, .push 1, .push 0] ++
        List.replicate 8 (.pipeline (.dispatcher false)) ++
        List.replicate 2 (.pipeline (.consume .realtime)))).map
      (fun s ↦ (s.numbers, s.created, (s.ledger.pipe.popped .realtime).length)) =
      some ([1, 0], 2, 2) := by
    decide +kernel
  obtain ⟨s, hrun, hs⟩ := Option.map_eq_some_iff.mp hrun
  simp only [Prod.mk.injEq] at hs
  obtain ⟨hnumbers, hcreated, hpopped⟩ := hs
  have hreach := Machine.Reachable.run .start hrun
  have hx := List.getElem?_eq_getElem (l := s.ledger.pipe.popped .realtime) (i := 0) (by omega)
  have hy := List.getElem?_eq_getElem (l := s.ledger.pipe.popped .realtime) (i := 1) (by omega)
  refine ⟨s, _, _, hreach, hx, hy, hnumbers, ?_⟩
  intro hid
  rcases ids_identify _ _ s hreach .realtime .realtime 0 1 _ _ hx hy hid with ⟨-, hsame⟩ | hmany
  · cases hsame
  · omega

end EventStreamCore.Bridge
