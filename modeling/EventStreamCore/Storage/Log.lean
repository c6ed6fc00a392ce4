import EventStreamCore.Lib.SelfDelimiting
import EventStreamCore.Storage.Storage

/-!
# Reading the storage log

The repository writes the log, `src/core/storage/storage.cpp:50–101`, and has no reader
(`retrieveEvent`, `storage.cpp:103–108`, always fails). Records follow one another without
separators; the reader below shows that the length fields suffice, also for a log whose last
write was cut short.
-/

namespace EventStreamCore.Events

/-- The enumerator of a byte. -/
def EventSourceType.ofNat? : Nat → Option EventSourceType
  | 0 => some .tcp
  | 1 => some .udp
  | 2 => some .file
  | 3 => some .internal
  | 4 => some .plugin
  | 5 => some .python
  | _ => none

/-- The byte of a source type leads back to it. -/
theorem EventSourceType.ofNat?_toByte (t : EventSourceType) : ofNat? t.toByte.toNat = some t := by
  cases t <;> rfl

end EventStreamCore.Events

namespace EventStreamCore.Storage
open EventStreamCore.Lib EventStreamCore.Events

/-- What the log keeps of an event. -/
structure StoredRecord where
  timestamp : UInt64
  sourceType : EventSourceType
  id : UInt32
  topic : Bytes
  body : Bytes
deriving DecidableEq, Repr

/-- The record of an event. -/
def recordOf (event : Event) : StoredRecord :=
  ⟨event.header.timestamp, event.header.sourceType, event.header.id, event.topic, event.body⟩

/-- The length fields hold the lengths: the topic's has 32 bits, and the body's has the 64 bits
of `size()` itself. -/
def StoredRecord.Fits (r : StoredRecord) : Prop :=
  r.topic.length < 2 ^ 32 ∧ r.body.length < 2 ^ 64

/-- A little-endian number of `width` bytes. -/
def readNat (width : Nat) : Reader UInt8 Nat := do
  let bytes ← Reader.take width
  return ofBigEndian bytes.reverse

/-- What follows the timestamp of a record. -/
def readFields (timestamp : Nat) : Reader UInt8 StoredRecord := do
  let source ← readNat 1
  let sourceType ← Reader.ofOption (EventSourceType.ofNat? source)
  let id ← readNat 4
  let topicLen ← readNat 4
  let topic ← Reader.take topicLen
  let payloadSize ← readNat 8
  let body ← Reader.take payloadSize
  return ⟨UInt64.ofNat timestamp, sourceType, UInt32.ofNat id, topic, body⟩

/-- One record. -/
def readRecord : Reader UInt8 StoredRecord := do
  let timestamp ← readNat 8
  readFields timestamp

/-- A number that fits its width is read back. -/
theorem readNat_littleEndian {width value : Nat} (h : value < 256 ^ width) (rest : Bytes) :
    readNat width (littleEndian width value ++ rest) = some (value, rest) := by
  have hlen : (littleEndian width value).length = width := by
    rw [littleEndian, List.length_reverse, length_bigEndian]
  have htake := Reader.take_append (littleEndian width value) rest
  rw [hlen] at htake
  rw [readNat, Reader.bind_of_some htake, littleEndian, List.reverse_reverse,
    ofBigEndian_bigEndian, Nat.mod_eq_of_lt h]
  rfl

theorem forward_readNat (width : Nat) : (readNat width).Forward :=
  (Reader.forward_take width).bind fun _ ↦ Reader.forward_pure _

theorem forward_readFields (timestamp : Nat) : (readFields timestamp).Forward := by
  refine (forward_readNat 1).bind fun source ↦ ?_
  refine (Reader.forward_ofOption _).bind fun sourceType ↦ ?_
  refine (forward_readNat 4).bind fun id ↦ ?_
  refine (forward_readNat 4).bind fun topicLen ↦ ?_
  refine (Reader.forward_take topicLen).bind fun topic ↦ ?_
  refine (forward_readNat 8).bind fun payloadSize ↦ ?_
  refine (Reader.forward_take payloadSize).bind fun body ↦ ?_
  exact Reader.forward_pure _

theorem forward_readRecord : readRecord.Forward :=
  (forward_readNat 8).bind forward_readFields

/-- A record takes at least the eight bytes of its timestamp. -/
theorem readRecord_shrinks {xs ys : Bytes} {r : StoredRecord}
    (h : readRecord xs = some (r, ys)) : ys.length < xs.length := by
  obtain ⟨timestamp, zs, htimestamp, hrest⟩ := Reader.bind_eq_some h
  have hle : ys.length ≤ zs.length := (forward_readFields timestamp _ _ _ hrest).2
  obtain ⟨bytes, zs', htake, hpure⟩ := Reader.bind_eq_some htimestamp
  cases hpure
  rw [Reader.take] at htake
  split at htake
  · cases htake
    rw [List.length_drop] at hle
    omega
  · cases htake

/-- The bytes `storeEvent` writes for a record that fits. -/
def StoredRecord.bytes (r : StoredRecord) : Bytes :=
  littleEndian 8 r.timestamp.toNat ++ (littleEndian 1 r.sourceType.toByte.toNat ++
    (littleEndian 4 r.id.toNat ++ (littleEndian 4 r.topic.length ++ (r.topic ++
      (littleEndian 8 r.body.length ++ (r.body ++ []))))))

/-- `storeEvent` writes the record of its event. -/
theorem serialize_eq_bytes {event : Event} (h : (recordOf event).Fits) :
    serialize event = (recordOf event).bytes := by
  have htopic : event.topic.length % 2 ^ 32 = event.topic.length := Nat.mod_eq_of_lt h.1
  have hsource : littleEndian 1 event.header.sourceType.toByte.toNat =
      [event.header.sourceType.toByte] := by
    cases event.header.sourceType <;> rfl
  have hbytes : (if event.topic.length > 0 then event.topic else []) = event.topic := by
    split
    · rfl
    · next hzero => exact (List.eq_nil_of_length_eq_zero (Nat.eq_zero_of_not_pos hzero)).symm
  simp only [serialize, htopic, hbytes, StoredRecord.bytes, recordOf, hsource, List.append_assoc,
    List.append_nil]

/-- A record that fits is read back. -/
theorem readRecord_bytes {r : StoredRecord} (h : r.Fits) : readRecord r.bytes = some (r, []) := by
  obtain ⟨timestamp, sourceType, id, topic, body⟩ := r
  have hsource : sourceType.toByte.toNat < 256 ^ 1 := sourceType.toByte.toNat_lt
  have htype : ∀ rest : Bytes,
      (Reader.ofOption (EventSourceType.ofNat? sourceType.toByte.toNat) : Reader UInt8 _) rest =
        some (sourceType, rest) := by
    intro rest
    rw [Reader.ofOption, EventSourceType.ofNat?_toByte]
    rfl
  rw [readRecord, StoredRecord.bytes,
    Reader.bind_of_some (readNat_littleEndian timestamp.toNat_lt _), readFields,
    Reader.bind_of_some (readNat_littleEndian hsource _), Reader.bind_of_some (htype _),
    Reader.bind_of_some (readNat_littleEndian id.toNat_lt _),
    Reader.bind_of_some (readNat_littleEndian h.1 _), Reader.bind_of_some (Reader.take_append _ _),
    Reader.bind_of_some (readNat_littleEndian h.2 _), Reader.bind_of_some (Reader.take_append _ _),
    UInt64.ofNat_toNat, UInt32.ofNat_toNat]
  rfl

/-- The log as a sequence of self-delimiting records. -/
def recordLog : SelfDelimiting UInt8 StoredRecord where
  Valid := StoredRecord.Fits
  write := StoredRecord.bytes
  read := readRecord
  read_write := readRecord_bytes
  read_append h := (forward_readRecord _ _ _ h).1
  read_shrinks := readRecord_shrinks

/-- The reader of a whole log. -/
def readLog (log : Bytes) : List StoredRecord := recordLog.readAll log

namespace StorageEngine

/-- The bytes in the file. -/
def contents (s : StorageEngine) : Bytes := s.storageFile.flatten

/-- `storeEvent` for one event after another, no write failing. -/
def storeAll (s : StorageEngine) (events : List Event) : Option StorageEngine :=
  events.foldlM (fun s event ↦ s.storeEvent event false) s

/-- The events are stored, one record after another. -/
theorem storeAll_contents (s : StorageEngine) (events : List Event)
    (h : ∀ event ∈ events, (recordOf event).Fits) : ∃ t, s.storeAll events = some t ∧
      t.contents = s.contents ++ recordLog.writeAll (events.map recordOf) := by
  induction events generalizing s with
  | nil => exact ⟨s, rfl, by simp [SelfDelimiting.writeAll]⟩
  | cons event events ih =>
    obtain ⟨r, hstore⟩ : ∃ r, s.storeEvent event false = some r := ⟨_, rfl⟩
    obtain ⟨t, hall, hcontents⟩ := ih r fun e he ↦ h e (List.mem_cons_of_mem _ he)
    refine ⟨t, ?_, ?_⟩
    · rw [storeAll, List.foldlM_cons, hstore]
      exact hall
    · have hwrite : serialize event = recordLog.write (recordOf event) :=
        serialize_eq_bytes (h event List.mem_cons_self)
      rw [hcontents, List.map_cons, recordLog.writeAll_cons, contents, contents,
        (storeEvent_storageFile hstore).2, List.flatten_append, List.flatten_singleton, hwrite,
        List.append_assoc]

/-- The bytes of records that fit. -/
theorem writeAll_recordOf {events : List Event} (h : ∀ event ∈ events, (recordOf event).Fits) :
    recordLog.writeAll (events.map recordOf) = (events.map serialize).flatten := by
  rw [SelfDelimiting.writeAll, List.map_map]
  congr 1
  exact List.map_congr_left fun event hevent ↦ (serialize_eq_bytes (h event hevent)).symm

end StorageEngine

/-- The log is uniquely decodable. Events with topics shorter than 2^32 bytes are stored as a log
that no other records have; `readLog` recovers their records from it, and from any first part of
it exactly those whose bytes are complete there. -/
theorem log_uniquely_decodable (events : List Event)
    (h : ∀ event ∈ events, (recordOf event).Fits) :
    ∃ s, StorageEngine.initial.storeAll events = some s ∧
      (∀ (events' : List Event) (s' : StorageEngine),
        (∀ event ∈ events', (recordOf event).Fits) →
        StorageEngine.initial.storeAll events' = some s' → s.contents = s'.contents →
          events.map recordOf = events'.map recordOf) ∧
      readLog s.contents = events.map recordOf ∧
      ∀ log, log <+: s.contents → ∃ m ≤ events.length,
        readLog log = (events.take m).map recordOf ∧
        ∀ k ≤ events.length, ((events.take k).map serialize).flatten <+: log ↔ k ≤ m := by
  have hvalid : ∀ {events : List Event}, (∀ event ∈ events, (recordOf event).Fits) →
      ∀ r ∈ events.map recordOf, recordLog.Valid r := fun h ↦ List.forall_mem_map.mpr h
  obtain ⟨s, hstore, hcontents⟩ := StorageEngine.initial.storeAll_contents events h
  rw [show StorageEngine.initial.contents = [] from rfl, List.nil_append] at hcontents
  refine ⟨s, hstore, fun events' s' h' hstore' heq ↦ ?_, ?_, fun log hlog ↦ ?_⟩
  · obtain ⟨t, ht, hcontents'⟩ := StorageEngine.initial.storeAll_contents events' h'
    cases hstore'.symm.trans ht
    rw [show StorageEngine.initial.contents = [] from rfl, List.nil_append] at hcontents'
    exact recordLog.writeAll_injective (hvalid h) (hvalid h')
      (hcontents.symm.trans (heq.trans hcontents'))
  · rw [hcontents]
    exact recordLog.readAll_writeAll (hvalid h)
  · rw [hcontents] at hlog
    obtain ⟨m, hm, hread, hcomplete⟩ := recordLog.readAll_of_prefix (hvalid h) hlog
    rw [List.length_map] at hm hcomplete
    refine ⟨m, hm, ?_, fun k hk ↦ ?_⟩
    · rw [List.map_take]
      exact hread
    · rw [← hcomplete k hk, ← List.map_take, StorageEngine.writeAll_recordOf
        fun event hevent ↦ h event (List.mem_of_mem_take hevent)]

/-- Two records, the first with an empty body and the second cut off in its body. -/
theorem log_uniquely_decodable_two :
    let events : List Event :=
      [⟨⟨.udp, .low, 1, 5, 0, 1, 0⟩, [116], [], [], 0⟩,
        ⟨⟨.tcp, .high, 2, 6, 3, 2, 0⟩, [116, 117], [7, 8, 9], [], 0⟩]
    let log := (events.map serialize).flatten
    readLog log = events.map recordOf ∧
    ∃ m, readLog (log.take 54) = (events.take m).map recordOf ∧ m = 1 := by
  intro events log
  have hfits : ∀ event ∈ events, (recordOf event).Fits := by
    simp [events, recordOf, StoredRecord.Fits]
  obtain ⟨s, hstore, -, hall, hprefix⟩ := log_uniquely_decodable events hfits
  have hlog : s.contents = log := by
    cases hstore
    rfl
  rw [hlog] at hall hprefix
  obtain ⟨m, hm, hread, hcomplete⟩ := hprefix (log.take 54) (List.take_prefix _ _)
  have hone : 1 ≤ m := (hcomplete 1 (by decide)).mp (by decide +kernel)
  have htwo : ¬2 ≤ m := fun h ↦ absurd ((hcomplete 2 (by decide)).mpr h) (by decide +kernel)
  exact ⟨hall, m, hread, by omega⟩

end EventStreamCore.Storage
