import EventStreamCore.Bridge.Provenance

/-!
# Every frame is accounted for

The counters of `TcpIngestServer`, `src/core/ingest/tcp.cpp:249–255`, which `stop` logs,
`tcp.cpp:100–105`, over all runs of the engine. The threads of the clients create, push and count at
the same time.
-/

namespace EventStreamCore.Bridge
open EventStreamCore.Lib EventStreamCore.Events EventStreamCore.Storage EventStreamCore.Ingest
open EventStreamCore.Ingest.TcpIngestServer

/-- An accepted event that has not been counted yet. -/
def TurnPc.accepted : TurnPc → Nat
  | .answered true => 1
  | _ => 0

/-- A rejected event that has not been counted yet. -/
def TurnPc.rejected : TurnPc → Nat
  | .answered false => 1
  | _ => 0

theorem TurnPc.accepted_eq_zero (pc : TurnPc) (h : ∀ b, pc ≠ .answered b) : pc.accepted = 0 := by
  cases pc with
  | answered b => exact absurd rfl (h b)
  | _ => rfl

theorem TurnPc.rejected_eq_zero (pc : TurnPc) (h : ∀ b, pc ≠ .answered b) : pc.rejected = 0 := by
  cases pc with
  | answered b => exact absurd rfl (h b)
  | _ => rfl

/-- The thread of a client is past `handleClient`. -/
def pastHandling : ClientPc → Bool
  | .uncounting | .finishing | .returning | .returned => true
  | _ => false

namespace WireToDisk

/-- How many frames have been pushed. -/
def pushedTotal (s : WireToDisk) : Nat := tally id s.pushed s.server.accepted

/-- The frames pushed are those counted and those about to be, and a thread is through with its
frames when it ends. -/
structure Accounted (s : WireToDisk) : Prop where
  unborn : ∀ k, s.server.accepted ≤ k → s.turns k = .idle ∧ s.pushed k = 0
  pushed : ∀ k, s.pushed k ≤ (s.server.clients k).handed.length
  ended : ∀ k, pastHandling (s.server.clients k).pc → s.settled k
  processed : (s.totalEventsProcessed.toNat + tally TurnPc.accepted s.turns s.server.accepted) %
    2 ^ 64 = s.origins.length % 2 ^ 64
  dropped : (s.totalBackpressureDrops.toNat + tally TurnPc.rejected s.turns s.server.accepted +
    s.origins.length) % 2 ^ 64 = s.pushedTotal % 2 ^ 64

variable {topicTable : Option TopicTable} {s t : WireToDisk}

/-- A client with an event in its hands has a thread. -/
private theorem Accounted.born (h : s.Accounted) {k : Nat} (hk : s.turns k ≠ .idle) :
    k < s.server.accepted := by
  by_contra hle
  exact hk (h.unborn k (Nat.le_of_not_lt hle)).1

/-- A thread with an event in its hands has not ended. -/
private theorem Accounted.handling (h : s.Accounted) {k : Nat} (hk : s.turns k ≠ .idle) :
    pastHandling (s.server.clients k).pc = false := by
  rw [← Bool.not_eq_true]
  intro hpast
  have hsettled := h.ended k hpast
  simp only [settled, decide_eq_true_eq] at hsettled
  exact hk hsettled.1

/-- A step that leaves the threads of the clients and their turns alone. -/
private theorem Accounted.of_eq (h : s.Accounted) (hserver : t.server = s.server)
    (hturns : t.turns = s.turns) (hpushed : t.pushed = s.pushed)
    (horigins : t.origins = s.origins)
    (hprocessed : t.totalEventsProcessed = s.totalEventsProcessed)
    (hdropped : t.totalBackpressureDrops = s.totalBackpressureDrops) : t.Accounted := by
  have hsettled : ∀ k, t.settled k = s.settled k := by
    intro k
    rw [settled, hserver, hturns, hpushed, settled]
  refine ⟨?_, ?_, ?_, ?_, ?_⟩
  · rw [hserver, hturns, hpushed]
    exact h.unborn
  · rw [hserver, hpushed]
    exact h.pushed
  · intro k
    rw [hserver, hsettled]
    exact h.ended k
  · rw [hserver, hturns, hprocessed, horigins]
    exact h.processed
  · rw [pushedTotal, hserver, hturns, hdropped, horigins, hpushed]
    exact h.dropped

/-- A thread that has read goes on handling or closes. -/
private theorem pc_afterRecv (c : ClientThread) (result : Recv) (hpc : c.pc = .handling) :
    pastHandling (TcpServer.afterRecv c result).pc = false := by
  cases result with
  | error e => rfl
  | ok chunk =>
    cases chunk with
    | nil => rfl
    | cons b bs =>
      rw [TcpServer.afterRecv]
      split
      · rfl
      · dsimp only
        rw [hpc]
        rfl

private theorem accounted_server {l : TcpServerLabel} {server : TcpServer} (h : s.Accounted)
    (hallows : s.allows l) (ht : s.server.step l = some server) :
    Accounted { s with server } := by
  have hborn : s.server.accepted ≤ server.accepted := by
    rcases TcpServer.accepted_step ht with hsame | hmore <;> omega
  have htally : ∀ w : TurnPc → Nat, w .idle = 0 →
      tally w s.turns server.accepted = tally w s.turns s.server.accepted := by
    intro w hw
    rcases TcpServer.accepted_step ht with hsame | hmore
    · rw [hsame]
    · rw [hmore, tally_succ, (h.unborn _ (Nat.le_refl _)).1, hw, Nat.add_zero]
  have hpushed : tally id s.pushed server.accepted = tally id s.pushed s.server.accepted := by
    rcases TcpServer.accepted_step ht with hsame | hmore
    · rw [hsame]
    · rw [hmore, tally_succ, (h.unborn _ (Nat.le_refl _)).2, id, Nat.add_zero]
  refine ⟨?_, ?_, ?_, ?_, ?_⟩
  · exact fun k hk ↦ h.unborn k (hborn.trans hk)
  · exact fun k ↦ (h.pushed k).trans (TcpServer.handed_step ht k).length_le
  · intro k hpast
    dsimp only at hpast
    have hkept : s.settled k → (server.clients k).handed = (s.server.clients k).handed →
        settled { s with server } k := by
      intro hsettled hhanded
      rw [settled, hhanded]
      exact hsettled
    rcases TcpServer.clients_step ht k with
      hplace | ⟨rfl, -, hhanded⟩ | ⟨result, -, -, hpc, hclient⟩
    · have hpc : (server.clients k).pc = (s.server.clients k).pc := congrArg Prod.fst hplace
      rw [hpc] at hpast
      exact hkept (h.ended k hpast) (congrArg Prod.snd hplace)
    · exact hkept hallows hhanded
    · rw [hclient, pc_afterRecv _ result hpc] at hpast
      cases hpast
  · dsimp only
    rw [htally TurnPc.accepted rfl]
    exact h.processed
  · dsimp only [pushedTotal]
    rw [htally TurnPc.rejected rfl, hpushed]
    exact h.dropped

/-- A thread that goes on with an event in its hands leaves the other threads' turns alone. -/
private theorem Accounted.of_turn (h : s.Accounted) {k : Nat} {pc : TurnPc}
    (hk : k < s.server.accepted) (hpc : pastHandling (s.server.clients k).pc = false)
    (hserver : t.server = s.server) (hturns : t.turns = Function.update s.turns k pc)
    (hpushed : ∀ j, j ≠ k → t.pushed j = s.pushed j) :
    (∀ j, t.server.accepted ≤ j → t.turns j = .idle ∧ t.pushed j = 0) ∧
      ∀ j, pastHandling (t.server.clients j).pc → t.settled j := by
  have hother : ∀ j, j ≠ k → t.turns j = s.turns j := by
    intro j hj
    rw [hturns, Function.update_of_ne hj]
  constructor
  · intro j hj
    rw [hserver] at hj
    have hne : j ≠ k := by omega
    rw [hother j hne, hpushed j hne]
    exact h.unborn j hj
  · intro j hpast
    rw [hserver] at hpast
    have hne : j ≠ k := by
      rintro rfl
      rw [hpc] at hpast
      cases hpast
    rw [settled, hother j hne, hpushed j hne, hserver]
    exact h.ended j hpast

private theorem accounted_create {client : Nat} {metadata : List (Bytes × Bytes)}
    {timestamp : UInt64} (h : s.Accounted) (hserver : s.server.Inv)
    (ht : s.create client metadata timestamp = some t) : t.Accounted := by
  obtain ⟨frame, hidle, hframe, rfl⟩ := create_eq_some ht
  have hnext : s.pushed client < (s.server.clients client).handed.length :=
    (List.getElem?_eq_some_iff.mp hframe).1
  have hborn : client < s.server.accepted := by
    by_contra hle
    rw [hserver.custody.unborn client (Nat.le_of_not_lt hle)] at hnext
    exact absurd hnext (Nat.not_lt_zero _)
  have hhandling : pastHandling (s.server.clients client).pc = false := by
    rw [← Bool.not_eq_true]
    intro hpast
    have hsettled := h.ended client hpast
    simp only [settled, decide_eq_true_eq] at hsettled
    omega
  obtain ⟨hunborn, hended⟩ := h.of_turn (t := { s with
    factory := (s.factory.createEvent (createArgs frame metadata timestamp)).2
    created := s.created + 1
    turns := Function.update s.turns client
      (.created s.created (s.factory.createEvent (createArgs frame metadata timestamp)).1) })
    hborn hhandling rfl rfl fun _ _ ↦ rfl
  refine ⟨hunborn, h.pushed, hended, ?_, ?_⟩
  · dsimp only
    rw [tally_update_of_eq (by rw [hidle]; rfl)]
    exact h.processed
  · dsimp only [pushedTotal]
    rw [tally_update_of_eq (by rw [hidle]; rfl)]
    exact h.dropped

private theorem accounted_push {client : Nat} (h : s.Accounted) (hsourced : s.Sourced)
    (ht : s.push topicTable client = some t) : t.Accounted := by
  obtain ⟨number, evt, hturn, rfl⟩ := push_eq_some ht
  obtain ⟨frame, hframe, -⟩ := hsourced.made client number evt hturn
  have hnext : s.pushed client < (s.server.clients client).handed.length :=
    (List.getElem?_eq_some_iff.mp hframe).1
  have hbusy : s.turns client ≠ .idle := by simp [hturn]
  have hborn := h.born hbusy
  obtain ⟨hunborn, hended⟩ := h.of_turn (t := { s with
    turns := Function.update s.turns client (.answered !(s.ledger.accepts (some evt)).isEmpty)
    pushed := Function.update s.pushed client (s.pushed client + 1) })
    hborn (h.handling hbusy) rfl rfl fun j hj ↦ Function.update_of_ne hj _ _
  have hpushed := tally_update (w := id) (f := s.pushed) hborn (s.pushed client + 1)
  have haccepted := tally_update (w := TurnPc.accepted) (f := s.turns) hborn
    (.answered !(s.ledger.accepts (some evt)).isEmpty)
  have hrejected := tally_update (w := TurnPc.rejected) (f := s.turns) hborn
    (.answered !(s.ledger.accepts (some evt)).isEmpty)
  have hprocessed := h.processed
  have hdropped := h.dropped
  rw [pushedTotal] at hdropped
  rw [id, id] at hpushed
  rw [hturn] at haccepted hrejected
  refine ⟨hunborn, ?_, hended, ?_, ?_⟩
  · intro k
    by_cases hk : k = client
    · subst hk
      dsimp only
      rw [Function.update_self]
      exact hnext
    · dsimp only
      rw [Function.update_of_ne hk]
      exact h.pushed k
  · dsimp only
    rcases accepts_some s.ledger evt with hfull | hroom
    · simp only [hfull, List.isEmpty_nil, Bool.not_true, TurnPc.accepted, List.map_nil,
        List.append_nil] at haccepted ⊢
      omega
    · simp only [hroom, List.isEmpty_cons, Bool.not_false, TurnPc.accepted, List.map_singleton,
        List.length_append, List.length_singleton] at haccepted ⊢
      omega
  · dsimp only [pushedTotal]
    rcases accepts_some s.ledger evt with hfull | hroom
    · simp only [hfull, List.isEmpty_nil, Bool.not_true, TurnPc.rejected, List.map_nil,
        List.append_nil] at hrejected ⊢
      omega
    · simp only [hroom, List.isEmpty_cons, Bool.not_false, TurnPc.rejected, List.map_singleton,
        List.length_append, List.length_singleton] at hrejected ⊢
      omega

private theorem accounted_count {client : Nat} (h : s.Accounted) (ht : s.count client = some t) :
    t.Accounted := by
  obtain ⟨accepted, hturn, rfl⟩ := count_eq_some ht
  have hbusy : s.turns client ≠ .idle := by simp [hturn]
  have hborn := h.born hbusy
  obtain ⟨hunborn, hended⟩ := h.of_turn (t := { s with
    turns := Function.update s.turns client .idle })
    hborn (h.handling hbusy) rfl rfl fun _ _ ↦ rfl
  have haccepted := tally_update (w := TurnPc.accepted) (f := s.turns) hborn .idle
  have hrejected := tally_update (w := TurnPc.rejected) (f := s.turns) hborn .idle
  have hprocessed := h.processed
  have hdropped := h.dropped
  rw [hturn] at haccepted hrejected
  refine ⟨hunborn, h.pushed, hended, ?_, ?_⟩
  · dsimp only
    cases accepted with
    | true =>
      simp only [TurnPc.accepted, if_true, UInt64.toNat_add, UInt64.reduceToNat] at haccepted ⊢
      omega
    | false =>
      simp only [TurnPc.accepted, Bool.false_eq_true, if_false, UInt64.toNat_add,
        UInt64.reduceToNat] at haccepted ⊢
      omega
  · dsimp only [pushedTotal]
    rw [pushedTotal] at hdropped
    cases accepted with
    | true =>
      simp only [TurnPc.rejected, if_true, UInt64.toNat_add, UInt64.reduceToNat] at hrejected ⊢
      omega
    | false =>
      simp only [TurnPc.rejected, Bool.false_eq_true, if_false, UInt64.toNat_add,
        UInt64.reduceToNat] at hrejected ⊢
      omega

private theorem accounted_initial {buffer : Fin realtimeCapacity.val → Item} :
    (initial buffer).Accounted := by
  refine ⟨fun _ _ ↦ ⟨rfl, rfl⟩, fun _ ↦ Nat.zero_le _, ?_, rfl, rfl⟩
  intro k hpast
  cases hpast

/-- Every step of the engine keeps the accounts right. -/
theorem Accounted.step {l : WireToDiskLabel} (h : s.Accounted) (hinv : s.Inv topicTable)
    (ht : s.step topicTable l = some t) : t.Accounted := by
  cases l with
  | server l =>
    obtain ⟨server, hallows, hserver, rfl⟩ := server_eq_some ht
    exact accounted_server h hallows hserver
  | create client metadata timestamp => exact accounted_create h hinv.server ht
  | push client => exact accounted_push h hinv.sourced ht
  | count client => exact accounted_count h ht
  | pipeline l =>
    cases l with
    | tryPush evt => cases ht
    | _ =>
      obtain ⟨ledger, -, rfl⟩ := Option.map_eq_some_iff.mp ht
      exact h.of_eq rfl rfl rfl rfl rfl rfl
  | store queueId index write flush =>
    obtain ⟨item, -, rfl⟩ := store_eq_some ht
    exact h.of_eq rfl rfl rfl rfl rfl rfl
  | flush io =>
    cases ht
    exact h.of_eq rfl rfl rfl rfl rfl rfl
  | debris bytes =>
    obtain ⟨storage, -, rfl⟩ := Option.map_eq_some_iff.mp ht
    exact h.of_eq rfl rfl rfl rfl rfl rfl

theorem Accounted.of_reachable {buffer : Fin realtimeCapacity.val → Item}
    (h : (wireToDisk topicTable buffer).Reachable s) : s.Accounted := by
  have hboth : s.Inv topicTable ∧ s.Accounted := by
    have hstart : (wireToDisk topicTable buffer).Reachable (.initial buffer) := .start
    refine Machine.Reachable.invariant
      (I := fun s ↦ s.Inv topicTable ∧ s.Accounted) ?_ ?_ h
    · exact ⟨Inv.of_reachable hstart, accounted_initial⟩
    · exact fun _ _ _ hi hs ↦ ⟨hi.1.step hs, hi.2.step hi.1 hs⟩
  exact hboth.2

/-- With no thread between its push and its counter, the counters are exact. -/
theorem Accounted.exact (h : s.Accounted) (hcounted : ∀ k b, s.turns k ≠ .answered b) :
    s.totalEventsProcessed.toNat = s.origins.length % 2 ^ 64 ∧
      (s.totalEventsProcessed.toNat + s.totalBackpressureDrops.toNat) % 2 ^ 64 =
        s.pushedTotal % 2 ^ 64 := by
  have hnone : ∀ w : TurnPc → Nat, (∀ pc, (∀ b, pc ≠ .answered b) → w pc = 0) →
      tally w s.turns s.server.accepted = 0 := by
    intro w hw
    apply tally_eq_zero
    intro k _
    exact hw _ (hcounted k)
  have hprocessed := h.processed
  have hdropped := h.dropped
  rw [hnone _ TurnPc.accepted_eq_zero] at hprocessed
  rw [hnone _ TurnPc.rejected_eq_zero] at hdropped
  have hlt : s.totalEventsProcessed.toNat < 2 ^ 64 := s.totalEventsProcessed.toNat_lt
  omega

end WireToDisk

/-- No frame is lost on the way into the engine without being counted. In every run, with the
threads of the clients creating, pushing and counting at the same time: what the inbound queue has
accepted are frames of the clients, those of each client in order and none twice; whenever no
thread is between its push and its counter, `totalEventsProcessed_` is the number of events
accepted, and together with `totalBackpressureDrops_` the number of frames pushed; and when `stop`
has returned, every frame handed over has been pushed and counted, so that what it logs is exact.
The counters are 64 bits wide, and the UDP server is off. -/
theorem frames_accounted (topicTable : Option TopicTable)
    (buffer : Fin realtimeCapacity.val → Item) (s : WireToDisk)
    (h : (wireToDisk topicTable buffer).Reachable s) :
    (s.origins.length = s.ledger.accepted.length ∧
      (s.origins.Pairwise fun o o' ↦ o.1 = o'.1 → o.2 < o'.2) ∧
      ∀ (n : Nat) (o : Nat × Nat) evt, s.origins[n]? = some o → s.ledger.accepted[n]? = some evt →
        ∃ frame, (s.server.clients o.1).handed[o.2]? = some frame ∧ MadeOf evt frame) ∧
    (∀ k, s.pushed k ≤ (s.server.clients k).handed.length) ∧
    ((∀ k b, s.turns k ≠ .answered b) →
      s.totalEventsProcessed.toNat = s.ledger.accepted.length % 2 ^ 64 ∧
      (s.totalEventsProcessed.toNat + s.totalBackpressureDrops.toNat) % 2 ^ 64 =
        tally id s.pushed s.server.accepted % 2 ^ 64) ∧
    (s.server.stop = .returned → (∀ k, s.turns k = .idle) ∧
      ∀ k, s.pushed k = (s.server.clients k).handed.length) := by
  have hinv := WireToDisk.Inv.of_reachable h
  have haccounted := WireToDisk.Accounted.of_reachable h
  have hcustody := hinv.server.custody
  refine ⟨⟨hinv.sourced.count, hinv.sourced.order, hinv.sourced.frame⟩, haccounted.pushed, ?_, ?_⟩
  · intro hcounted
    rw [← hinv.sourced.count]
    exact haccounted.exact hcounted
  · intro hstop
    have hsettled : ∀ k, s.turns k = .idle ∧
        s.pushed k = (s.server.clients k).handed.length := by
      intro k
      by_cases hk : k < s.server.accepted
      · have hpc := (hcustody.joined_of_destroyed (hcustody.destroyed_of_stopped hstop hk)).2
        have hended := haccounted.ended k (by rw [hpc]; rfl)
        simpa only [WireToDisk.settled, decide_eq_true_eq] using hended
      · obtain ⟨hidle, hnone⟩ := haccounted.unborn k (Nat.le_of_not_lt hk)
        rw [hnone, hcustody.unborn k (Nat.le_of_not_lt hk)]
        exact ⟨hidle, rfl⟩
    exact ⟨fun k ↦ (hsettled k).1, fun k ↦ (hsettled k).2⟩

/-- A client sends a frame and hangs up, and `stop` joins its thread. -/
theorem frames_accounted_stop : ∃ s : WireToDisk,
    (wireToDisk none fun _ ↦ ⟨0, ⟨⟨.tcp, .batch, 0, 0, 0, 0, 0⟩, [], [], [], 0⟩⟩).Reachable s ∧
    s.server.stop = .returned ∧ s.ledger.accepted.length = 1 ∧ s.totalEventsProcessed.toNat = 1 ∧
    s.pushed 0 = 1 := by
  let m := wireToDisk none fun _ ↦ ⟨0, ⟨⟨.tcp, .batch, 0, 0, 0, 0, 0⟩, [], [], [], 0⟩⟩
  have hrun : (m.run m.start
      [.server .accept, .server (.client 0), .server .acceptThread, .server .acceptThread,
        .server (.recv 0 (.ok (createEventFrame 0 [116] []))), .server .callStop, .create 0 [] 5,
        .push 0, .server .stop, .count 0, .server .acceptThread, .server .stop,
        .server (.recv 0 (.ok [])), .server (.client 0), .server (.client 0), .server (.client 0),
        .server (.client 0), .server .stop, .server .stop, .server .stop]).map
      (fun s ↦ (s.server.stop, s.ledger.accepted.length, (s.server.clients 0).handed.length)) =
      some (.returned, 1, 1) := by
    decide +kernel
  obtain ⟨s, hrun, hs⟩ := Option.map_eq_some_iff.mp hrun
  simp only [Prod.mk.injEq] at hs
  obtain ⟨hstop, haccepted, hhanded⟩ := hs
  have hreach := Machine.Reachable.run .start hrun
  obtain ⟨-, -, hexact, hstopped⟩ := frames_accounted _ _ s hreach
  obtain ⟨hidle, hall⟩ := hstopped hstop
  have hcounted : ∀ k b, s.turns k ≠ .answered b := by
    intro k b
    rw [hidle k]
    simp
  refine ⟨s, hreach, hstop, haccepted, ?_, by rw [hall, hhanded]⟩
  rw [(hexact hcounted).1, haccepted]
  rfl

end EventStreamCore.Bridge
