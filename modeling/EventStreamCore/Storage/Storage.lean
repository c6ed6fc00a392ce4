import EventStreamCore.Lib.BigEndian
import EventStreamCore.Events.Event

/-!
# The storage log

`StorageEngine::storeEvent`, `src/core/storage/storage.cpp:50–101`, on a little-endian host.
The log is the sequence of writes made to `storageFile`; its contents are their concatenation.
Whether `storageFile.good()` holds after a write is up to the disk, and a failed write leaves
no complete record.
-/

namespace EventStreamCore.Events

/-- `static_cast<uint8_t>` of a source type. -/
def EventSourceType.toByte : EventSourceType → UInt8
  | .tcp => 0
  | .udp => 1
  | .file => 2
  | .internal => 3
  | .plugin => 4
  | .python => 5

end EventStreamCore.Events

namespace EventStreamCore.Storage
open EventStreamCore.Lib EventStreamCore.Events

/-- The buffer `storeEvent` serializes an event into; the topic length is a `uint32_t`. -/
def serialize (event : Event) : Bytes :=
  let topicLen := event.topic.length % 2 ^ 32
  littleEndian 8 event.header.timestamp.toNat ++ [event.header.sourceType.toByte] ++
    littleEndian 4 event.header.id.toNat ++ littleEndian 4 topicLen ++
    (if topicLen > 0 then event.topic else []) ++ littleEndian 8 event.body.length ++ event.body

/-- The members `storeEvent` works on. -/
structure StorageEngine where
  storageFile : List Bytes
  eventCount : Nat
deriving DecidableEq, Repr

namespace StorageEngine

/-- `FLUSH_BATCH_SIZE`. -/
def flushBatchSize : Nat := 100

/-- An engine on a new file. -/
def initial : StorageEngine := ⟨[], 0⟩

/-- `storeEvent`; there is no result when it throws. -/
def storeEvent (s : StorageEngine) (event : Event) (fails : Bool) : Option StorageEngine :=
  if fails then none
  else
    let eventCount := s.eventCount + 1
    some ⟨s.storageFile ++ [serialize event],
      if eventCount ≥ flushBatchSize then 0 else eventCount⟩

/-- `storeEvent` throws or appends the event's record. -/
theorem storeEvent_storageFile {s t : StorageEngine} {event : Event} {fails : Bool}
    (h : s.storeEvent event fails = some t) :
    fails = false ∧ t.storageFile = s.storageFile ++ [serialize event] := by
  unfold storeEvent at h
  split at h
  · cases h
  · next hf =>
    cases h
    exact ⟨Bool.eq_false_iff.mpr hf, rfl⟩

end StorageEngine
end EventStreamCore.Storage
