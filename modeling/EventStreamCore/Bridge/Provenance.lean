import EventStreamCore.Bridge.WireToDisk

/-!
# Where a record comes from

Every event that a processor stores, `src/core/storage/storage.cpp:50–101`, is made of a frame that
`handleClient`, `src/core/ingest/tcp.cpp:173–274`, has cut out of a client's bytes, through every
step of the engine.
-/

namespace EventStreamCore.Bridge
open EventStreamCore.Lib EventStreamCore.Events EventStreamCore.Storage EventStreamCore.Ingest
open EventStreamCore.Ingest.TcpIngestServer (TcpServer TcpServerLabel tcpServer handleClient)

/-- An event with what a frame has brought. -/
def MadeOf (evt : Event) (frame : ParsedFrame) : Prop :=
  evt.header.sourceType = .tcp ∧ evt.topic = frame.topic ∧ evt.body = frame.payload

private theorem getElem?_of_prefix {α : Type} {xs ys : List α} (h : xs <+: ys) {n : Nat} {x : α}
    (hx : xs[n]? = some x) : ys[n]? = some x := by
  obtain ⟨rest, rfl⟩ := h
  rw [List.getElem?_append_left (List.getElem?_eq_some_iff.mp hx).1]
  exact hx

namespace WireToDisk

/-- Each accepted event is made of the frame it is booked under, the frames of a client come in
order and none of them twice, and an event not pushed yet is made of the frame that is next. -/
structure Sourced (s : WireToDisk) : Prop where
  count : s.origins.length = s.ledger.accepted.length
  order : s.origins.Pairwise fun o o' ↦ o.1 = o'.1 → o.2 < o'.2
  pushed : ∀ o ∈ s.origins, o.2 < s.pushed o.1
  frame : ∀ (n : Nat) (o : Nat × Nat) evt, s.origins[n]? = some o →
    s.ledger.accepted[n]? = some evt → ∃ frame, s.frameOf o = some frame ∧ MadeOf evt frame
  made : ∀ k number evt, s.turns k = .created number evt →
    ∃ frame, s.frameOf (k, s.pushed k) = some frame ∧ MadeOf evt frame

/-- Each event stored is one that a consumer has popped, at the place noted. -/
structure Recorded (s : WireToDisk) : Prop where
  count : s.written.length = s.storage.history.length
  event : ∀ (j : Nat) (place : QueueId × Nat) event, s.written[j]? = some place →
    s.storage.history[j]? = some event →
    ∃ item, (s.ledger.pipe.popped place.1)[place.2]? = some item ∧ item.event = event

/-- What every run of the engine keeps. -/
structure Inv (topicTable : Option TopicTable) (s : WireToDisk) : Prop where
  server : s.server.Inv
  pipe : s.ledger.pipe.Inv
  traced : s.ledger.Traced topicTable
  sourced : s.Sourced
  recorded : s.Recorded
  storage : s.storage.Inv

variable {topicTable : Option TopicTable} {s t : WireToDisk}

/-- No two accepted events come from one frame. -/
theorem Sourced.nodup (h : s.Sourced) : s.origins.Nodup := by
  apply h.order.imp
  rintro o o' hlt rfl
  exact Nat.lt_irrefl _ (hlt rfl)

/-- A step that pushes nothing. -/
private theorem Sourced.of_handed (h : s.Sourced) (horigins : t.origins = s.origins)
    (hpushed : t.pushed = s.pushed) (haccepted : t.ledger.accepted = s.ledger.accepted)
    (hhanded : ∀ k, (s.server.clients k).handed <+: (t.server.clients k).handed)
    (hturns : ∀ k number evt, t.turns k = .created number evt →
      s.turns k = .created number evt ∨
        ∃ frame, s.frameOf (k, s.pushed k) = some frame ∧ MadeOf evt frame) : t.Sourced := by
  refine ⟨?_, ?_, ?_, ?_, ?_⟩
  · rw [horigins, haccepted]
    exact h.count
  · rw [horigins]
    exact h.order
  · rw [horigins, hpushed]
    exact h.pushed
  · rw [horigins, haccepted]
    intro n o evt ho hevt
    obtain ⟨frame, hframe, hmade⟩ := h.frame n o evt ho hevt
    exact ⟨frame, getElem?_of_prefix (hhanded o.1) hframe, hmade⟩
  · rw [hpushed]
    intro k number evt hturn
    obtain ⟨frame, hframe, hmade⟩ := (hturns k number evt hturn).elim (h.made k number evt) id
    exact ⟨frame, getElem?_of_prefix (hhanded k) hframe, hmade⟩

private theorem Recorded.of_popped (h : s.Recorded) (hwritten : t.written = s.written)
    (hhistory : t.storage.history = s.storage.history)
    (hpopped : ∀ q, s.ledger.pipe.popped q <+: t.ledger.pipe.popped q) : t.Recorded := by
  refine ⟨?_, ?_⟩
  · rw [hwritten, hhistory]
    exact h.count
  · rw [hwritten, hhistory]
    intro j place event hplace hevent
    obtain ⟨item, hitem, hsame⟩ := h.event j place event hplace hevent
    exact ⟨item, getElem?_of_prefix (hpopped place.1) hitem, hsame⟩

/-- What `create` does. -/
theorem create_eq_some {client : Nat} {metadata : List (Bytes × Bytes)} {timestamp : UInt64}
    (ht : s.create client metadata timestamp = some t) :
    ∃ frame, s.turns client = .idle ∧ s.frameOf (client, s.pushed client) = some frame ∧
      t = { s with
        factory := (s.factory.createEvent (createArgs frame metadata timestamp)).2
        created := s.created + 1
        turns := Function.update s.turns client (.created s.created
          (s.factory.createEvent (createArgs frame metadata timestamp)).1) } := by
  unfold create at ht
  split at ht
  · next hidle =>
    obtain ⟨frame, hframe, ht⟩ := Option.bind_eq_some_iff.mp ht
    cases ht
    exact ⟨frame, hidle, hframe, rfl⟩
  · cases ht

/-- What `push` does. -/
theorem push_eq_some {client : Nat} (ht : s.push topicTable client = some t) :
    ∃ number evt, s.turns client = .created number evt ∧
      t = { s with
        turns := Function.update s.turns client (.answered !(s.ledger.accepts (some evt)).isEmpty)
        pushed := Function.update s.pushed client (s.pushed client + 1)
        origins :=
          s.origins ++ (s.ledger.accepts (some evt)).map fun _ ↦ (client, s.pushed client)
        numbers := s.numbers ++ (s.ledger.accepts (some evt)).map fun _ ↦ number
        ledger := ⟨s.ledger.pipe.tryPush (some evt),
          s.ledger.accepted ++ s.ledger.accepts (some evt)⟩ } := by
  unfold push at ht
  split at ht
  · next number evt hturn =>
    cases ht
    exact ⟨number, evt, hturn, rfl⟩
  · cases ht

/-- What `count` does. -/
theorem count_eq_some {client : Nat} (ht : s.count client = some t) :
    ∃ accepted, s.turns client = .answered accepted ∧
      t = { s with
        turns := Function.update s.turns client .idle
        totalEventsProcessed := s.totalEventsProcessed + (if accepted then 1 else 0)
        totalBackpressureDrops := s.totalBackpressureDrops + (if accepted then 0 else 1) } := by
  unfold count at ht
  split at ht
  · next hturn =>
    cases ht
    exact ⟨true, hturn, by simp⟩
  · next hturn =>
    cases ht
    exact ⟨false, hturn, by simp⟩
  · cases ht

theorem accepts_some (ledger : Ledger) (evt : Event) :
    ledger.accepts (some evt) = [] ∨ ledger.accepts (some evt) = [evt] := by
  unfold Ledger.accepts
  split
  · exact .inl rfl
  · exact .inr rfl

private theorem sourced_push {client : Nat} (h : s.Sourced)
    (ht : s.push topicTable client = some t) : t.Sourced := by
  obtain ⟨number, evt, hturn, rfl⟩ := push_eq_some ht
  obtain ⟨frame, hframe, hmade⟩ := h.made client number evt hturn
  have hless : ∀ o ∈ s.origins,
      o.2 < Function.update s.pushed client (s.pushed client + 1) o.1 := by
    intro o ho
    have hlt := h.pushed o ho
    by_cases hk : o.1 = client
    · rw [hk] at hlt
      rw [hk, Function.update_self]
      omega
    · rw [Function.update_of_ne hk]
      exact hlt
  have hrest : ∀ k number' evt',
      Function.update s.turns client (.answered !(s.ledger.accepts (some evt)).isEmpty) k =
        .created number' evt' →
      ∃ frame,
        s.frameOf (k, Function.update s.pushed client (s.pushed client + 1) k) = some frame ∧
          MadeOf evt' frame := by
    intro k number' evt' hk
    by_cases hclient : k = client
    · rw [hclient, Function.update_self] at hk
      cases hk
    · rw [Function.update_of_ne hclient] at hk ⊢
      exact h.made k number' evt' hk
  rcases accepts_some s.ledger evt with hfull | hroom
  · simp only [hfull, List.map_nil, List.append_nil] at hrest ⊢
    exact ⟨h.count, h.order, hless, h.frame, hrest⟩
  · simp only [hroom, List.map_singleton] at hrest ⊢
    refine ⟨?_, ?_, ?_, ?_, hrest⟩
    · rw [List.length_append, List.length_append, h.count]
      rfl
    · apply List.pairwise_append.mpr
      refine ⟨h.order, List.pairwise_singleton _ _, ?_⟩
      intro o ho o' ho' hclient
      -- the number of this frame is beyond those of all frames pushed before
      obtain rfl := List.mem_singleton.mp ho'
      have hlt := h.pushed o ho
      rw [hclient] at hlt
      exact hlt
    · intro o ho
      rcases List.mem_append.mp ho with hold | hnew
      · exact hless o hold
      · obtain rfl := List.mem_singleton.mp hnew
        dsimp only
        rw [Function.update_self]
        exact Nat.lt_succ_self _
    · intro n o evt' ho hevt
      by_cases hn : n < s.origins.length
      · rw [List.getElem?_append_left hn] at ho
        rw [List.getElem?_append_left (by rw [← h.count]; exact hn)] at hevt
        exact h.frame n o evt' ho hevt
      · have hle := Nat.le_of_not_lt hn
        rw [List.getElem?_append_right hle, List.getElem?_singleton] at ho
        rw [List.getElem?_append_right (by rw [← h.count]; exact hle),
          List.getElem?_singleton] at hevt
        split at ho <;> cases ho
        split at hevt <;> cases hevt
        exact ⟨frame, hframe, hmade⟩

/-- A step that changes the turn of one client, and not to an event that waits. -/
theorem turns_update {client k number : Nat} {evt : Event} {pc : TurnPc}
    (hpc : ∀ number evt, pc ≠ .created number evt)
    (h : Function.update s.turns client pc k = .created number evt) :
    s.turns k = .created number evt := by
  by_cases hk : k = client
  · rw [hk, Function.update_self] at h
    exact absurd h (hpc number evt)
  · rw [Function.update_of_ne hk] at h
    exact h

private theorem sourced_create {client : Nat} {metadata : List (Bytes × Bytes)}
    {timestamp : UInt64} (h : s.Sourced) (ht : s.create client metadata timestamp = some t) :
    t.Sourced := by
  obtain ⟨frame, -, hframe, rfl⟩ := create_eq_some ht
  refine h.of_handed rfl rfl rfl (fun _ ↦ List.prefix_rfl) ?_
  intro k number evt hk
  by_cases hclient : k = client
  · subst hclient
    dsimp only at hk
    rw [Function.update_self] at hk
    cases hk
    exact .inr ⟨frame, hframe, rfl, rfl, rfl⟩
  · dsimp only at hk
    rw [Function.update_of_ne hclient] at hk
    exact .inl hk

private theorem sourced_count {client : Nat} (h : s.Sourced) (ht : s.count client = some t) :
    t.Sourced := by
  obtain ⟨accepted, -, rfl⟩ := count_eq_some ht
  refine h.of_handed rfl rfl rfl (fun _ ↦ List.prefix_rfl) ?_
  intro k number evt hk
  exact .inl (turns_update (by simp) hk)

/-- A popped event is made of the frame its ticket is booked under. -/
theorem Inv.exists_frame (h : s.Inv topicTable) {q : QueueId} {item : Item}
    (hitem : item ∈ s.ledger.pipe.popped q) :
    ∃ o frame, s.origins[item.ticket]? = some o ∧ s.frameOf o = some frame ∧
      MadeOf item.event frame := by
  obtain ⟨evt, hevt, rtPressure, hroute⟩ := h.traced.popped q item hitem
  have hlt : item.ticket < s.origins.length := by
    rw [h.sourced.count]
    exact (List.getElem?_eq_some_iff.mp hevt).1
  have horigin := List.getElem?_eq_getElem hlt
  obtain ⟨frame, hframe, hsource, htopic, hbody⟩ := h.sourced.frame _ _ evt horigin hevt
  obtain ⟨hsame, -⟩ := Dispatcher.route_frame hroute
  refine ⟨_, frame, horigin, hframe, ?_⟩
  -- on the way only the priority has changed
  rw [hsame]
  exact ⟨hsource, htopic, hbody⟩

/-- The record of a popped event fits its length fields. -/
theorem Inv.fits (h : s.Inv topicTable) {q : QueueId} {item : Item}
    (hitem : item ∈ s.ledger.pipe.popped q) : (recordOf item.event).Fits := by
  obtain ⟨o, frame, -, hframe, -, htopic, hbody⟩ := h.exists_frame hitem
  have hmem : frame ∈ (s.server.clients o.1).handed := List.mem_of_getElem? hframe
  rw [(h.server.custody.clients o.1).handed] at hmem
  obtain ⟨hsmall, hlimit⟩ := small_of_handleClient _ _ frame hmem
  rw [TcpIngestServer.kMaxBufferSize] at hlimit
  change item.event.topic.length < 2 ^ 32 ∧ item.event.body.length < 2 ^ 64
  rw [htopic, hbody]
  omega

/-- What `store` does. -/
theorem store_eq_some {queueId : QueueId} {index : Nat} {write flush : Io}
    (ht : s.store queueId index write flush = some t) :
    ∃ item, (s.ledger.pipe.popped queueId)[index]? = some item ∧
      t = { s with
        storage := s.storage.storeEvent item.event write flush
        written :=
          if (s.storage.storeEvent item.event write flush).history.length =
            s.storage.history.length then s.written
          else s.written ++ [(queueId, index)] } := by
  obtain ⟨item, hitem, ht⟩ := Option.bind_eq_some_iff.mp ht
  cases ht
  exact ⟨item, hitem, rfl⟩

private theorem recorded_store {queueId : QueueId} {index : Nat} {write flush : Io}
    (h : s.Recorded) (ht : s.store queueId index write flush = some t) : t.Recorded := by
  obtain ⟨item, hitem, rfl⟩ := store_eq_some ht
  rcases s.storage.history_storeEvent item.event write flush with hthrown | hstored
  · refine h.of_popped ?_ hthrown fun _ ↦ List.prefix_rfl
    dsimp only
    rw [hthrown, if_pos rfl]
  · have hmore : (s.storage.storeEvent item.event write flush).history.length ≠
        s.storage.history.length := by
      rw [hstored, List.length_append]
      simp
    simp only [if_neg hmore]
    refine ⟨?_, ?_⟩
    · dsimp only
      rw [hstored, List.length_append, List.length_append, h.count]
      rfl
    · intro j place event hplace hevent
      dsimp only at hplace hevent ⊢
      rw [hstored] at hevent
      by_cases hj : j < s.written.length
      · rw [List.getElem?_append_left hj] at hplace
        rw [List.getElem?_append_left (by rw [← h.count]; exact hj)] at hevent
        exact h.event j place event hplace hevent
      · have hle := Nat.le_of_not_lt hj
        rw [List.getElem?_append_right hle, List.getElem?_singleton] at hplace
        rw [List.getElem?_append_right (by rw [← h.count]; exact hle),
          List.getElem?_singleton] at hevent
        split at hplace <;> cases hplace
        split at hevent <;> cases hevent
        exact ⟨item, hitem, rfl⟩

private theorem inv_pipeline {l : PipelineLabel} {ledger : Ledger} (h : s.Inv topicTable)
    (hl : ∀ evt, l ≠ .tryPush evt) (ht : s.ledger.step topicTable l = some ledger) :
    Inv topicTable { s with ledger } := by
  obtain ⟨evt, rfl, -⟩ | ⟨-, hpipe, haccepted⟩ := Ledger.step_cases ht
  · exact absurd rfl (hl evt)
  · refine ⟨h.server, h.pipe.step hpipe, h.traced.step h.pipe ht, ?_, ?_, h.storage⟩
    · exact h.sourced.of_handed rfl rfl haccepted (fun _ ↦ List.prefix_rfl) fun _ _ _ ↦ .inl
    · exact h.recorded.of_popped rfl rfl fun q ↦ Pipeline.popped_step hpipe q

private theorem inv_push {client : Nat} (h : s.Inv topicTable)
    (ht : s.push topicTable client = some t) : t.Inv topicTable := by
  have hsourced := sourced_push h.sourced ht
  obtain ⟨number, evt, -, rfl⟩ := push_eq_some ht
  have hpipe : s.ledger.pipe.step topicTable (.tryPush (some evt)) =
      some (s.ledger.pipe.tryPush (some evt)) := rfl
  refine ⟨h.server, h.pipe.step hpipe, ?_, hsourced, ?_, h.storage⟩
  · exact h.traced.step (l := .tryPush (some evt)) h.pipe rfl
  · exact h.recorded.of_popped rfl rfl fun q ↦ Pipeline.popped_step hpipe q

private theorem inv_store {queueId : QueueId} {index : Nat} {write flush : Io}
    (h : s.Inv topicTable) (ht : s.store queueId index write flush = some t) :
    t.Inv topicTable := by
  have hrecorded := recorded_store h.recorded ht
  obtain ⟨item, hitem, rfl⟩ := store_eq_some ht
  refine ⟨h.server, h.pipe, h.traced, ?_, hrecorded, ?_⟩
  · exact h.sourced.of_handed rfl rfl rfl (fun _ ↦ List.prefix_rfl) fun _ _ _ ↦ .inl
  · apply h.storage.step (l := .storeEvent item.event write flush) _ rfl
    exact h.fits (List.mem_of_getElem? hitem)

private theorem inv_debris {bytes : Bytes} (h : s.Inv topicTable)
    (ht : s.step topicTable (.debris bytes) = some t) : t.Inv topicTable := by
  obtain ⟨storage, hstorage, rfl⟩ := Option.map_eq_some_iff.mp ht
  have hstored := h.storage.step (l := .debris bytes) trivial hstorage
  refine ⟨h.server, h.pipe, h.traced, ?_, ?_, hstored⟩
  · exact h.sourced.of_handed rfl rfl rfl (fun _ ↦ List.prefix_rfl) fun _ _ _ ↦ .inl
  · rw [StorageProcess.step] at hstorage
    split at hstorage <;> cases hstorage
    exact h.recorded.of_popped rfl rfl fun _ ↦ List.prefix_rfl

/-- A step of the server is one its clients' frames allow. -/
theorem server_eq_some {l : TcpServerLabel} (ht : s.step topicTable (.server l) = some t) :
    ∃ server, s.allows l ∧ s.server.step l = some server ∧ t = { s with server } := by
  rw [step] at ht
  split at ht
  · next hallows =>
    obtain ⟨server, hserver, rfl⟩ := Option.map_eq_some_iff.mp ht
    exact ⟨server, hallows, hserver, rfl⟩
  · cases ht

/-- Every step of the engine keeps the invariant. -/
theorem Inv.step {l : WireToDiskLabel} (h : s.Inv topicTable)
    (ht : s.step topicTable l = some t) : t.Inv topicTable := by
  cases l with
  | server l =>
    obtain ⟨server, -, hserver, rfl⟩ := server_eq_some ht
    refine ⟨h.server.step hserver, h.pipe, h.traced, ?_, ?_, h.storage⟩
    · exact h.sourced.of_handed rfl rfl rfl (fun k ↦ TcpServer.handed_step hserver k)
        fun _ _ _ ↦ .inl
    · exact h.recorded.of_popped rfl rfl fun _ ↦ List.prefix_rfl
  | create client metadata timestamp =>
    have hsourced := sourced_create h.sourced ht
    obtain ⟨frame, -, -, rfl⟩ := create_eq_some ht
    exact ⟨h.server, h.pipe, h.traced, hsourced,
      h.recorded.of_popped rfl rfl fun _ ↦ List.prefix_rfl, h.storage⟩
  | push client => exact inv_push h ht
  | count client =>
    have hsourced := sourced_count h.sourced ht
    obtain ⟨accepted, -, rfl⟩ := count_eq_some ht
    exact ⟨h.server, h.pipe, h.traced, hsourced,
      h.recorded.of_popped rfl rfl fun _ ↦ List.prefix_rfl, h.storage⟩
  | pipeline l =>
    cases l with
    | tryPush evt => cases ht
    | _ =>
      obtain ⟨ledger, hledger, rfl⟩ := Option.map_eq_some_iff.mp ht
      exact inv_pipeline h (by simp) hledger
  | store queueId index write flush => exact inv_store h ht
  | flush io =>
    cases ht
    refine ⟨h.server, h.pipe, h.traced, ?_, ?_, h.storage.step (l := .flush io) trivial rfl⟩
    · exact h.sourced.of_handed rfl rfl rfl (fun _ ↦ List.prefix_rfl) fun _ _ _ ↦ .inl
    · exact h.recorded.of_popped rfl rfl fun _ ↦ List.prefix_rfl
  | debris bytes => exact inv_debris h ht

theorem Inv.of_reachable {buffer : Fin realtimeCapacity.val → Item}
    (h : (wireToDisk topicTable buffer).Reachable s) : s.Inv topicTable := by
  refine Machine.Reachable.invariant ?_ (fun _ _ _ hi hs ↦ hi.step hs) h
  have hpipe : (Events.pipeline topicTable buffer).Reachable (.initial buffer) := .start
  have hstart : (Events.ledger topicTable buffer).Reachable ⟨.initial buffer, []⟩ := .start
  refine ⟨.initial, ?_, Ledger.Traced.of_reachable hstart, ?_, ?_, .initial⟩
  · exact Pipeline.Inv.of_reachable hpipe
  · refine ⟨rfl, List.Pairwise.nil, fun _ ho ↦ absurd ho List.not_mem_nil, ?_, ?_⟩
    · intro n o evt ho
      cases ho
    · intro k number evt hk
      cases hk
  · refine ⟨rfl, ?_⟩
    intro j place event hplace
    cases hplace

end WireToDisk

end EventStreamCore.Bridge
