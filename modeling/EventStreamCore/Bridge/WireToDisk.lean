import EventStreamCore.Ingest.Messages
import EventStreamCore.Ingest.TcpServerRuns
import EventStreamCore.Events.EventFactory
import EventStreamCore.Events.Integrity
import EventStreamCore.Storage.Durability

/-!
# From the wire to the disk

The engine as `src/main.cpp:45–124` puts it together: the threads of `TcpIngestServer`, which turn
frames into events and push them, `src/core/ingest/tcp.cpp:233–261`, the pipeline from the inbound
queue to the consumers, and the processors' calls of `storeEvent`, which append to the file,
`src/core/processor/realtime.cpp:106`, `transactional.cpp:92`, `batch.cpp:121`. The parts are the
models of these components; here they run side by side. Which popped events a processor stores,
how often and in which order is left open. The UDP server, which is off unless it is configured,
is left out, and so is the stamp that `pop` gives an event, which no record holds.
-/

namespace EventStreamCore.Bridge
open EventStreamCore.Lib EventStreamCore.Events EventStreamCore.Storage EventStreamCore.Ingest
open EventStreamCore.Ingest.TcpIngestServer (TcpServer TcpServerLabel tcpServer handleClient)

/-- Where the thread of a client stands with its next frame: before `createEvent`, before `tryPush`,
or before a counter; `tcp.cpp:234–254`. An event carries how many had been created before it. -/
inductive TurnPc where
  | idle
  | created (number : Nat) (event : Event)
  | answered (accepted : Bool)
deriving DecidableEq, Repr

/-- The engine. `created` counts the events ever created and `pushed` the frames of each client
that have been pushed; `origins` has for the k-th event the inbound queue accepted its client and
the number of its frame there, `numbers` how many events had been created before it, and `written`
for the records written the queue and the place among what was popped from it. -/
structure WireToDisk where
  server : TcpServer
  factory : EventFactory
  created : Nat
  turns : Nat → TurnPc
  pushed : Nat → Nat
  totalEventsProcessed : UInt64
  totalBackpressureDrops : UInt64
  origins : List (Nat × Nat)
  numbers : List Nat
  ledger : Ledger
  written : List (QueueId × Nat)
  storage : StorageProcess

/-- What a step is: a step of the server, the thread of a client creates an event of its next
frame, pushes it, or counts it, a step of the pipeline, a processor stores an event it has popped,
the stream is flushed, or it leaves bytes behind after it has failed. -/
inductive WireToDiskLabel where
  | server (l : TcpServerLabel)
  | create (client : Nat) (metadata : List (Bytes × Bytes)) (timestamp : UInt64)
  | push (client : Nat)
  | count (client : Nat)
  | pipeline (l : PipelineLabel)
  | store (queueId : QueueId) (index : Nat) (write flush : Io)
  | flush (io : Io)
  | debris (bytes : Bytes)

namespace WireToDisk

/-- The frame of a client with this number. -/
def frameOf (s : WireToDisk) (origin : Nat × Nat) : Option ParsedFrame :=
  (s.server.clients origin.1).handed[origin.2]?

/-- The thread of a client is through with the frames it has cut out. -/
def settled (s : WireToDisk) (client : Nat) : Bool :=
  s.turns client = .idle ∧ s.pushed client = (s.server.clients client).handed.length

/-- A thread reads on, or ends, only when it is through with its frames. -/
def allows (s : WireToDisk) : TcpServerLabel → Bool
  | .recv client _ => s.settled client
  | .client client => s.settled client
  | _ => true

/-- What `handleClient` gives to `createEvent`. -/
def createArgs (frame : ParsedFrame) (metadata : List (Bytes × Bytes)) (timestamp : UInt64) :
    CreateArgs :=
  ⟨.tcp, frame.priority, frame.payload, frame.topic, metadata, timestamp⟩

/-- `createEvent` for the next frame of a client. -/
def create (s : WireToDisk) (client : Nat) (metadata : List (Bytes × Bytes)) (timestamp : UInt64) :
    Option WireToDisk :=
  if s.turns client = .idle then do
    let frame ← s.frameOf (client, s.pushed client)
    let (event, factory) := s.factory.createEvent (createArgs frame metadata timestamp)
    return { s with
      factory
      created := s.created + 1
      turns := Function.update s.turns client (.created s.created event) }
  else none

/-- `tryPush` of the event a client's thread has created. -/
def push (topicTable : Option TopicTable) (s : WireToDisk) (client : Nat) : Option WireToDisk :=
  match s.turns client with
  | .created number event => do
    let ledger ← s.ledger.step topicTable (.tryPush (some event))
    let accepted := s.ledger.accepts (some event)
    return { s with
      turns := Function.update s.turns client (.answered !accepted.isEmpty)
      pushed := Function.update s.pushed client (s.pushed client + 1)
      origins := s.origins ++ accepted.map fun _ ↦ (client, s.pushed client)
      numbers := s.numbers ++ accepted.map fun _ ↦ number
      ledger }
  | _ => none

/-- The counter that goes with the answer of `tryPush`. -/
def count (s : WireToDisk) (client : Nat) : Option WireToDisk :=
  match s.turns client with
  | .answered true =>
    some { s with
      turns := Function.update s.turns client .idle
      totalEventsProcessed := s.totalEventsProcessed + 1 }
  | .answered false =>
    some { s with
      turns := Function.update s.turns client .idle
      totalBackpressureDrops := s.totalBackpressureDrops + 1 }
  | _ => none

/-- A processor's `storeEvent` for an event it has popped; a record is written unless it throws. -/
def store (s : WireToDisk) (queueId : QueueId) (index : Nat) (write flush : Io) :
    Option WireToDisk := do
  let item ← (s.ledger.pipe.popped queueId)[index]?
  let storage := s.storage.storeEvent item.event write flush
  let written := if storage.history.length = s.storage.history.length then s.written
    else s.written ++ [(queueId, index)]
  return { s with storage, written }

/-- One step. -/
def step (topicTable : Option TopicTable) (s : WireToDisk) : WireToDiskLabel → Option WireToDisk
  | .server l =>
    if s.allows l then (s.server.step l).map fun server ↦ { s with server } else none
  | .create client metadata timestamp => s.create client metadata timestamp
  | .push client => s.push topicTable client
  | .count client => s.count client
  | .pipeline (.tryPush _) => none
  | .pipeline l => (s.ledger.step topicTable l).map fun ledger ↦ { s with ledger }
  | .store queueId index write flush => s.store queueId index write flush
  | .flush io => (s.storage.step (.flush io)).map fun storage ↦ { s with storage }
  | .debris bytes => (s.storage.step (.debris bytes)).map fun storage ↦ { s with storage }

/-- A new engine on a new file. -/
def initial (buffer : Fin realtimeCapacity.val → Item) : WireToDisk :=
  ⟨.initial, ⟨0⟩, 0, fun _ ↦ .idle, fun _ ↦ 0, 0, 0, [], [], ⟨.initial buffer, []⟩, [],
    ⟨.openFile [], 0, []⟩⟩

end WireToDisk

/-- All runs of the engine. -/
def wireToDisk (topicTable : Option TopicTable) (buffer : Fin realtimeCapacity.val → Item) :
    Machine WireToDisk WireToDiskLabel where
  start := .initial buffer
  step := WireToDisk.step topicTable

/-! ### What a frame can hold -/

/-- The topic and the payload of a frame that has been handed over are far from the limits of the
length fields of a record. -/
theorem small_of_parseLoop (buf : Bytes) (offset count : Nat) (frame : ParsedFrame)
    (h : frame ∈ (TcpIngestServer.parseLoop buf offset count).1) :
    frame.topic.length < 2 ^ 16 ∧ frame.payload.length ≤ TcpIngestServer.kMaxBufferSize := by
  fun_induction TcpIngestServer.parseLoop buf offset count with
  | case1 offset count hin c hi => cases h
  | case2 offset count hin c hi ih => exact ih h
  | case3 offset count hin c hi => cases h
  | case4 offset count hin frameLen hi fullFrame later ih =>
    rcases List.mem_append.mp h with hnow | hlater
    · obtain ⟨-, hmax, -⟩ := le_of_extract hi
      have hfull : fullFrame.length ≤ 4 + frameLen := by
        simp only [fullFrame, List.length_take]
        omega
      unfold dispatchFrame at hnow
      split at hnow
      · next parsed hparse =>
        obtain rfl := List.mem_singleton.mp hnow
        have hkMax : TcpIngestServer.kMaxBufferSize = 10485760 := rfl
        have hlt : fullFrame.length < 2 ^ 32 + 4 := by omega
        obtain ⟨p, -, hencodable, hframe⟩ :=
          (parseFullFrame_ok_iff fullFrame hlt frame).mp hparse
        have hlength := congrArg List.length hframe
        rw [length_createEventFrame] at hlength
        have htopic := hencodable.2.2
        omega
      · cases hnow
    · exact ih hlater
  | case5 offset count hin => cases h

theorem small_of_handleClient (recvs : List Recv) (st : TcpIngestServer.ClientState)
    (frame : ParsedFrame) (h : frame ∈ (handleClient st recvs).1) :
    frame.topic.length < 2 ^ 16 ∧ frame.payload.length ≤ TcpIngestServer.kMaxBufferSize := by
  induction recvs generalizing st with
  | nil => cases h
  | cons result recvs ih =>
    cases result with
    | error e => cases h
    | ok chunk =>
      cases chunk with
      | nil => cases h
      | cons b bs =>
        rw [handleClient] at h
        have hround : ∀ pushed next, TcpIngestServer.parseRound st (b :: bs) = (pushed, next) →
            frame ∈ pushed → frame.topic.length < 2 ^ 16 ∧
              frame.payload.length ≤ TcpIngestServer.kMaxBufferSize := by
          intro pushed next hparse hmem
          have hpushed : pushed =
              (TcpIngestServer.parseLoop (st.clientBuffer ++ b :: bs) 0 st.emptyFrameCount).1 :=
            (congrArg Prod.fst hparse).symm
          rw [hpushed] at hmem
          exact small_of_parseLoop _ _ _ frame hmem
        split at h
        · next pushed hparse => exact hround pushed none hparse h
        · next pushed st' hparse =>
          rcases List.mem_append.mp h with hnow | hlater
          · exact hround pushed (some st') hparse hnow
          · exact ih st' hlater

end EventStreamCore.Bridge
