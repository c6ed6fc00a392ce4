import EventStreamCore.Events.Event

/-!
# Creating events

`EventFactory`, `src/core/events/event_factory.cpp:7–50`. The counter has 64 bits, the id field
of a header 32. The clock reading is an argument.
-/

namespace EventStreamCore.Events

/-- What `createEvent` is given, and the clock reading it takes. -/
structure CreateArgs where
  sourceType : EventSourceType
  priority : EventPriority
  payload : Bytes
  topic : Bytes
  metadata : List (Bytes × Bytes)
  timestamp : UInt64

/-- The static state of `EventFactory`. -/
structure EventFactory where
  globalEventId : UInt64

namespace EventFactory

/-- One of the eight rounds for an entry of `CRC32_TABLE`. -/
def crcRound (crc : UInt32) : UInt32 :=
  if crc &&& 1 ≠ 0 then (crc >>> 1) ^^^ 0xEDB88320 else crc >>> 1

/-- `CRC32_TABLE[i]`. -/
def crc32Table (i : UInt32) : UInt32 := (List.range 8).foldl (fun crc _ ↦ crcRound crc) i

/-- `calculateCRC32`. -/
def calculateCRC32 (data : Bytes) : UInt32 :=
  let crc := data.foldl (fun (crc : UInt32) byte ↦
    (crc >>> 8) ^^^ crc32Table ((crc ^^^ byte.toUInt32) &&& 0xFF)) 0xFFFFFFFF
  crc ^^^ 0xFFFFFFFF

/-- `createEvent`. -/
def createEvent (f : EventFactory) (a : CreateArgs) : Event × EventFactory :=
  (⟨{ sourceType := a.sourceType
      priority := a.priority
      id := (f.globalEventId &&& 0xFFFFFFFF).toUInt32
      timestamp := a.timestamp
      bodyLen := UInt32.ofNat a.payload.length
      topicLen := UInt16.ofNat a.topic.length
      crc32 := calculateCRC32 a.payload },
    a.topic, a.payload, a.metadata, 0⟩, ⟨f.globalEventId + 1⟩)

/-- The id is the counter modulo `2^32`. -/
theorem createEvent_id (f : EventFactory) (a : CreateArgs) :
    (f.createEvent a).1.header.id.toNat = f.globalEventId.toNat % 2 ^ 32 := by
  change ((f.globalEventId &&& 0xFFFFFFFF).toUInt32).toNat = _
  rw [UInt64.toNat_toUInt32, UInt64.toNat_and]
  have hmask : (0xFFFFFFFF : UInt64).toNat = 2 ^ 32 - 1 := rfl
  rw [hmask, Nat.and_two_pow_sub_one_eq_mod, Nat.mod_mod]

end EventFactory
end EventStreamCore.Events
