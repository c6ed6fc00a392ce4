import EventStreamCore.Lib.Machine
import EventStreamCore.Storage.Log

/-!
# What a crash leaves of the storage log

`StorageEngine` over its `std::ofstream`, `src/core/storage/storage.cpp:6–101`: the constructor
opens the file for appending, `storeEvent` writes into the stream's buffer and flushes it after
every hundredth event, the destructor flushes and closes. How much of the buffer a `write` hands
to the operating system and whether that succeeds is up to the library and the disk; a stream that
has failed once takes nothing more, because nothing clears its state.
-/

namespace EventStreamCore.Storage
open EventStreamCore.Lib EventStreamCore.Events

/-- What an operation of the stream does with its pending bytes: how many it hands on at least,
and whether it succeeds. -/
structure Io where
  spill : Nat
  ok : Bool
deriving DecidableEq, Repr

/-- A `std::ofstream` on a file: the bytes handed to the operating system, the bytes still in the
buffer, and `good()`. -/
structure OutStream where
  disk : Bytes
  buffer : Bytes
  good : Bool
deriving DecidableEq, Repr

namespace OutStream

/-- Open a file for appending. -/
def openFile (disk : Bytes) : OutStream := ⟨disk, [], true⟩

/-- `write`; a stream that is not good does nothing. -/
def write (f : OutStream) (bytes : Bytes) (io : Io) : OutStream :=
  if f.good then
    let pending := f.buffer ++ bytes
    ⟨f.disk ++ pending.take io.spill, pending.drop io.spill, io.ok⟩
  else f

/-- `flush`; when it succeeds nothing is left in the buffer. -/
def flush (f : OutStream) (io : Io) : OutStream :=
  if f.good then
    if io.ok then ⟨f.disk ++ f.buffer, [], true⟩
    else ⟨f.disk ++ f.buffer.take io.spill, f.buffer.drop io.spill, false⟩
  else f

/-- The bytes handed on and those still to be. -/
def bytes (f : OutStream) : Bytes := f.disk ++ f.buffer

/-- A `write` appends its bytes, unless the stream has failed before. -/
theorem bytes_write {f : OutStream} (hf : f.good) (bytes : Bytes) (io : Io) :
    (f.write bytes io).bytes = f.bytes ++ bytes := by
  simp only [OutStream.bytes, write, hf, if_true, List.append_assoc, List.take_append_drop]

/-- A `flush` writes nothing of its own. -/
theorem bytes_flush (f : OutStream) (io : Io) : (f.flush io).bytes = f.bytes := by
  unfold flush
  split
  · split
    · simp [OutStream.bytes]
    · simp only [OutStream.bytes, List.append_assoc, List.take_append_drop]
  · rfl

/-- A `write` only appends to the file. -/
theorem disk_write (f : OutStream) (bytes : Bytes) (io : Io) :
    f.disk <+: (f.write bytes io).disk := by
  unfold write
  split
  · exact List.prefix_append _ _
  · exact List.prefix_rfl

/-- A `flush` only appends to the file. -/
theorem disk_flush (f : OutStream) (io : Io) : f.disk <+: (f.flush io).disk := by
  unfold flush
  split
  · split <;> exact List.prefix_append _ _
  · exact List.prefix_rfl

/-- A `flush` that leaves the stream good has handed on everything. -/
theorem buffer_flush {f : OutStream} {io : Io} (h : (f.flush io).good) :
    (f.flush io).disk = f.bytes ∧ (f.flush io).buffer = [] := by
  unfold flush at h ⊢
  split at h
  · split at h
    · next hg ho =>
      rw [if_pos hg, if_pos ho]
      exact ⟨rfl, rfl⟩
    · cases h
  · next hg => exact absurd h hg

end OutStream

/-- A process with its storage engine, and the events whose `storeEvent` has returned in this and
in all earlier processes on the file. -/
structure StorageProcess where
  storageFile : OutStream
  eventCount : Nat
  history : List Event
deriving DecidableEq, Repr

/-- What a step is: a call of `storeEvent` or of `flush`, a stop that runs the destructor or a
crash, both followed by the next process, or bytes that a failed stream leaves behind. -/
inductive StorageLabel where
  | storeEvent (event : Event) (write : Io) (flush : Io)
  | flush (io : Io)
  | restart (io : Io)
  | crash
  | debris (bytes : Bytes)
deriving DecidableEq, Repr

namespace StorageProcess

/-- `storeEvent`; it throws when the stream is not good after the write. -/
def storeEvent (s : StorageProcess) (event : Event) (write flush : Io) : StorageProcess :=
  let storageFile := s.storageFile.write (serialize event) write
  if !storageFile.good then { s with storageFile }
  else
    let history := s.history ++ [event]
    let eventCount := s.eventCount + 1
    if eventCount ≥ StorageEngine.flushBatchSize then ⟨storageFile.flush flush, 0, history⟩
    else ⟨storageFile, eventCount, history⟩

/-- `storeEvent` throws or has stored its event. -/
theorem history_storeEvent (s : StorageProcess) (event : Event) (write flush : Io) :
    (s.storeEvent event write flush).history = s.history ∨
      (s.storeEvent event write flush).history = s.history ++ [event] := by
  unfold storeEvent
  dsimp only
  split
  · exact .inl rfl
  · split <;> exact .inr rfl

/-- The constructor on the file an earlier process has left. -/
def reopen (s : StorageProcess) (disk : Bytes) : StorageProcess :=
  { s with storageFile := .openFile disk, eventCount := 0 }

/-- One step. -/
def step (s : StorageProcess) : StorageLabel → Option StorageProcess
  | .storeEvent event write flush => some (s.storeEvent event write flush)
  | .flush io => some { s with storageFile := s.storageFile.flush io }
  | .restart io => some (s.reopen (s.storageFile.flush io).disk)
  | .crash => some (s.reopen s.storageFile.disk)
  | .debris bytes =>
    if s.storageFile.good then none
    else some { s with storageFile := { s.storageFile with disk := s.storageFile.disk ++ bytes } }

/-- The topics and bodies fit their length fields, and no process but the last is killed or stops
with a stream that has failed. -/
def Orderly (s : StorageProcess) : StorageLabel → Prop
  | .storeEvent event _ _ => (recordOf event).Fits
  | .flush _ => True
  | .restart io => (s.storageFile.flush io).good
  | .crash => False
  | .debris _ => True

/-- What the log is to hold. -/
def log (events : List Event) : Bytes := recordLog.writeAll (events.map recordOf)

end StorageProcess

/-- All runs of the processes on a new file. -/
def storageProcesses : Machine StorageProcess StorageLabel where
  start := ⟨.openFile [], 0, []⟩
  step := StorageProcess.step

namespace StorageProcess

variable {s t : StorageProcess}

private theorem log_append (events more : List Event) :
    log (events ++ more) = log events ++ log more := by
  simp [log, SelfDelimiting.writeAll]

private theorem log_singleton {event : Event} (h : (recordOf event).Fits) :
    log [event] = serialize event := by
  rw [serialize_eq_bytes h]
  simp [log, SelfDelimiting.writeAll, recordLog]

/-- The engine as its callers see it, which has the records and not the stream. -/
def toEngine (s : StorageProcess) : StorageEngine := ⟨s.history.map serialize, s.eventCount⟩

/-- Over the stream, `storeEvent` is the append that either throws or takes the whole record, and
it throws when the write leaves the stream not good. -/
theorem storeEvent_refines (s : StorageProcess) (event : Event) (write flush : Io) :
    s.toEngine.storeEvent event (!(s.storageFile.write (serialize event) write).good) =
      (if (s.storageFile.write (serialize event) write).good
        then some (s.storeEvent event write flush).toEngine else none) ∧
    ((s.storageFile.write (serialize event) write).good = false →
      (s.storeEvent event write flush).toEngine = s.toEngine) := by
  cases hgood : (s.storageFile.write (serialize event) write).good with
  | false => simp [StorageEngine.storeEvent, storeEvent, hgood, toEngine]
  | true =>
    refine ⟨?_, fun h ↦ by cases h⟩
    by_cases hfull : s.eventCount + 1 ≥ StorageEngine.flushBatchSize
    · simp [StorageEngine.storeEvent, storeEvent, hgood, toEngine, hfull]
    · simp [StorageEngine.storeEvent, storeEvent, hgood, toEngine, hfull]

/-- The file holds the records of all events but the last few, and together with the buffer the
records of all of them as long as the stream has not failed. -/
structure Kept (s : StorageProcess) (lost : Nat) : Prop where
  fits : ∀ event ∈ s.history, (recordOf event).Fits
  all : s.storageFile.good → s.storageFile.bytes = log s.history
  most : ∃ m ≤ s.history.length, s.history.length ≤ m + lost ∧
    log (s.history.take m) <+: s.storageFile.disk

/-- What every orderly run keeps. -/
structure Inv (s : StorageProcess) : Prop where
  count : s.eventCount < StorageEngine.flushBatchSize
  kept : s.Kept (if s.storageFile.good then s.eventCount else StorageEngine.flushBatchSize)

/-- An operation of the stream that stores nothing may hand bytes on and may fail. -/
private theorem Kept.stream {lost : Nat} (h : s.Kept lost) {f : OutStream} {eventCount : Nat}
    (hdisk : s.storageFile.disk <+: f.disk) (hall : f.good → f.bytes = log s.history) :
    Kept { s with storageFile := f, eventCount } lost := by
  obtain ⟨m, hm, hlost, hmost⟩ := h.most
  exact ⟨h.fits, hall, m, hm, hlost, hmost.trans hdisk⟩

private theorem Kept.mono {lost lost' : Nat} (h : s.Kept lost) (hle : lost ≤ lost') :
    s.Kept lost' := by
  obtain ⟨m, hm, hlost, hmost⟩ := h.most
  exact ⟨h.fits, h.all, m, hm, by omega, hmost⟩

/-- With an empty buffer nothing is lost. -/
private theorem Kept.of_flushed {f : OutStream} {eventCount : Nat} {history : List Event}
    (hfits : ∀ event ∈ history, (recordOf event).Fits) (hbytes : f.bytes = log history)
    (hdisk : f.disk = log history) : Kept ⟨f, eventCount, history⟩ 0 := by
  refine ⟨hfits, fun _ ↦ hbytes, history.length, Nat.le_refl _, Nat.le_refl _, ?_⟩
  rw [List.take_length, hdisk]

/-- A write that succeeds adds one record. -/
private theorem Kept.store {lost : Nat} (h : s.Kept lost) (hgood : s.storageFile.good)
    {event : Event} (hevent : (recordOf event).Fits) (io : Io) (eventCount : Nat) :
    Kept ⟨s.storageFile.write (serialize event) io, eventCount, s.history ++ [event]⟩
      (lost + 1) := by
  obtain ⟨m, hm, hlost, hmost⟩ := h.most
  refine ⟨?_, ?_, m, ?_, ?_, ?_⟩
  · intro e he
    rcases List.mem_append.mp he with he | he
    · exact h.fits e he
    · obtain rfl := List.mem_singleton.mp he
      exact hevent
  · intro _
    rw [OutStream.bytes_write hgood, h.all hgood, log_append, log_singleton hevent]
  · rw [List.length_append]
    exact hm.trans (Nat.le_add_right _ _)
  · rw [List.length_append, List.length_singleton]
    omega
  · rw [List.take_append_of_le_length hm]
    exact hmost.trans (OutStream.disk_write _ _ _)

private theorem inv_storeEvent {event : Event} {write flush : Io} (h : s.Inv)
    (hevent : (recordOf event).Fits) : (s.storeEvent event write flush).Inv := by
  have hcount := h.count
  by_cases hgood : s.storageFile.good
  · have hkept := h.kept
    rw [if_pos hgood] at hkept
    unfold storeEvent
    dsimp only
    split
    · next hbad =>
      rw [Bool.not_eq_true', Bool.eq_false_iff] at hbad
      refine ⟨hcount, ?_⟩
      rw [if_neg hbad]
      apply Kept.stream (hkept.mono (Nat.le_of_lt hcount)) (OutStream.disk_write _ _ _)
      exact fun h ↦ absurd h hbad
    · next hok =>
      rw [Bool.not_eq_true', Bool.not_eq_false] at hok
      have hstored := hkept.store hgood hevent write (s.eventCount + 1)
      split
      · refine ⟨Nat.zero_lt_succ _, ?_⟩
        by_cases hflushed : ((s.storageFile.write (serialize event) write).flush flush).good
        · rw [if_pos hflushed]
          have hall := hstored.all hok
          apply Kept.of_flushed hstored.fits
          · exact (OutStream.bytes_flush _ _).trans hall
          · exact (OutStream.buffer_flush hflushed).1.trans hall
        · rw [if_neg hflushed]
          apply (hstored.mono hcount).stream (OutStream.disk_flush _ _)
          exact fun h ↦ absurd h hflushed
      · next hroom =>
        refine ⟨Nat.lt_of_not_le hroom, ?_⟩
        rw [if_pos hok]
        exact hstored
  · have hsame : s.storeEvent event write flush = s := by
      simp [storeEvent, OutStream.write, hgood]
    rw [hsame]
    exact h

private theorem inv_flush {io : Io} (h : s.Inv) :
    Inv { s with storageFile := s.storageFile.flush io } := by
  refine ⟨h.count, ?_⟩
  by_cases hgood : s.storageFile.good
  · have hkept := h.kept
    rw [if_pos hgood] at hkept
    have hall : (s.storageFile.flush io).bytes = log s.history :=
      (OutStream.bytes_flush _ _).trans (hkept.all hgood)
    apply Kept.stream _ (OutStream.disk_flush _ _) (fun _ ↦ hall)
    split
    · exact hkept
    · exact hkept.mono (Nat.le_of_lt h.count)
  · have hsame : s.storageFile.flush io = s.storageFile := by
      simp [OutStream.flush, hgood]
    rw [hsame]
    exact h.kept

/-- Every orderly step keeps the log readable. -/
theorem Inv.step {l : StorageLabel} (h : s.Inv) (hg : s.Orderly l) (ht : s.step l = some t) :
    t.Inv := by
  cases l with
  | storeEvent event write flush =>
    cases ht
    exact inv_storeEvent h hg
  | flush io =>
    cases ht
    exact inv_flush h
  | restart io =>
    cases ht
    have hgood : (s.storageFile.flush io).good := hg
    have hflushed : Inv { s with storageFile := s.storageFile.flush io } := inv_flush h
    have hall := hflushed.kept.all hgood
    have hdisk := (OutStream.buffer_flush hgood).1
    rw [OutStream.bytes_flush] at hall
    refine ⟨Nat.zero_lt_succ _, ?_⟩
    refine Kept.of_flushed h.kept.fits ?_ (hdisk.trans hall)
    change (s.storageFile.flush io).disk ++ [] = _
    rw [List.append_nil]
    exact hdisk.trans hall
  | crash => exact absurd hg id
  | debris bytes =>
    rw [StorageProcess.step] at ht
    split at ht
    · cases ht
    · next hbad =>
      cases ht
      have hkept := h.kept
      refine ⟨h.count, ?_⟩
      rw [if_neg hbad] at hkept ⊢
      apply hkept.stream (List.prefix_append _ _)
      exact fun h ↦ absurd h hbad

theorem Inv.initial : Inv ⟨.openFile [], 0, []⟩ := by
  refine ⟨Nat.zero_lt_succ _, ?_⟩
  apply Kept.of_flushed
  · exact fun event he ↦ absurd he List.not_mem_nil
  · rfl
  · rfl

/-- What a reader of the file finds. -/
theorem Inv.readLog (h : s.Inv) :
    ∃ m ≤ s.history.length,
      (s.history.take m).map recordOf <+: Storage.readLog s.storageFile.disk ∧
      s.history.length ≤ m + (if s.storageFile.good then 99 else 100) ∧
      (s.storageFile.good → Storage.readLog s.storageFile.disk = (s.history.take m).map recordOf ∧
        Storage.readLog s.storageFile.bytes = s.history.map recordOf) := by
  have hcount := h.count
  obtain ⟨hfits, hall, m, hm, hlost, hmost⟩ := h.kept
  have hvalid : ∀ {n}, ∀ r ∈ (s.history.take n).map recordOf, recordLog.Valid r :=
    List.forall_mem_map.mpr fun event he ↦ hfits event (List.mem_of_mem_take he)
  have hwhole : ∀ r ∈ s.history.map recordOf, recordLog.Valid r := List.forall_mem_map.mpr hfits
  by_cases hgood : s.storageFile.good
  · -- the file is a first part of the whole log
    have hbytes := hall hgood
    have hprefix : s.storageFile.disk <+: recordLog.writeAll (s.history.map recordOf) :=
      ⟨s.storageFile.buffer, hbytes⟩
    obtain ⟨k, hk, hread, hcomplete⟩ := recordLog.readAll_of_prefix hwhole hprefix
    rw [List.length_map] at hk hcomplete
    rw [if_pos hgood] at hlost
    have hmk : m ≤ k := by
      rw [← hcomplete m hm, ← List.map_take]
      exact hmost
    refine ⟨k, hk, ?_, ?_, ?_⟩
    · rw [List.map_take, ← hread]
      exact List.prefix_rfl
    · rw [if_pos hgood]
      have : s.eventCount < 100 := hcount
      omega
    · intro _
      refine ⟨by rw [List.map_take]; exact hread, ?_⟩
      rw [Storage.readLog, hbytes]
      exact recordLog.readAll_writeAll hwhole
  · rw [if_neg hgood] at hlost
    refine ⟨m, hm, ?_, by rw [if_neg hgood]; exact hlost, fun hgood' ↦ absurd hgood' hgood⟩
    obtain ⟨rest, hrest⟩ := hmost
    have hread := recordLog.readAll_append (log (s.history.take m)) rest
    rw [hrest, log, recordLog.readAll_writeAll hvalid] at hread
    exact hread

end StorageProcess

/-- A crash costs at most the last batch. In every run in which the earlier processes on a file
ended in order, however the stream hands on its buffer and whenever the disk fails: if the process
is killed now, a reader of the file finds the records of all events ever stored but at most the
last 99, in order, and nothing else, and file and buffer together hold the records of all of them;
once the disk has failed, he finds the records of all but at most the last 100 first. -/
theorem crash_loses_at_most_a_batch (s : StorageProcess)
    (h : storageProcesses.ReachableWith StorageProcess.Orderly s) :
    ∃ m ≤ s.history.length,
      (s.history.take m).map recordOf <+: readLog s.storageFile.disk ∧
      s.history.length ≤ m + (if s.storageFile.good then 99 else 100) ∧
      (s.storageFile.good → readLog s.storageFile.disk = (s.history.take m).map recordOf ∧
        readLog s.storageFile.bytes = s.history.map recordOf) := by
  have hinv : s.Inv :=
    h.invariant StorageProcess.Inv.initial fun _ _ _ hi hg hs ↦ hi.step hg hs
  exact hinv.readLog

/-- Two small events, of which the operating system has the first half of the second record when
the process is killed. -/
theorem crash_loses_at_most_a_batch_two : ∃ s : StorageProcess,
    storageProcesses.ReachableWith StorageProcess.Orderly s ∧ s.history.length = 2 ∧
    s.storageFile.disk.length = 40 ∧ ∃ m ≤ s.history.length,
      readLog s.storageFile.disk = (s.history.take m).map recordOf := by
  let first : Event := ⟨⟨.udp, .low, 1, 5, 0, 1, 0⟩, [116], [], [], 0⟩
  let second : Event := ⟨⟨.tcp, .high, 2, 6, 3, 2, 0⟩, [116, 117], [7, 8, 9], [], 0⟩
  let s := (storageProcesses.start.storeEvent first ⟨40, true⟩ ⟨0, true⟩).storeEvent second
    ⟨14, true⟩ ⟨0, true⟩
  have hfits : (recordOf first).Fits ∧ (recordOf second).Fits := by
    simp [first, second, recordOf, StoredRecord.Fits]
  have hreach : storageProcesses.ReachableWith StorageProcess.Orderly s :=
    .next (l := .storeEvent second ⟨14, true⟩ ⟨0, true⟩)
      (.next (l := .storeEvent first ⟨40, true⟩ ⟨0, true⟩) .start hfits.1 rfl) hfits.2 rfl
  obtain ⟨m, hm, -, -, hread⟩ := crash_loses_at_most_a_batch s hreach
  exact ⟨s, hreach, by decide +kernel, by decide +kernel, m, hm, (hread (by decide +kernel)).1⟩

namespace StorageProcess

variable {s t : StorageProcess}

/-- Every step, a crash included, only appends to the file. -/
theorem disk_step {l : StorageLabel} (ht : s.step l = some t) :
    s.storageFile.disk <+: t.storageFile.disk := by
  cases l with
  | storeEvent event write flush =>
    cases ht
    have hwrite := s.storageFile.disk_write (serialize event) write
    unfold storeEvent
    dsimp only
    split
    · exact hwrite
    · split
      · exact hwrite.trans (OutStream.disk_flush _ _)
      · exact hwrite
  | flush io =>
    cases ht
    exact OutStream.disk_flush _ _
  | restart io =>
    cases ht
    exact OutStream.disk_flush _ _
  | crash =>
    cases ht
    exact List.prefix_rfl
  | debris bytes =>
    rw [step] at ht
    split at ht
    · cases ht
    · cases ht
      exact List.prefix_append _ _

/-- A stream that has failed takes nothing more in this process. -/
theorem failed_step {l : StorageLabel} (hbad : s.storageFile.good = false)
    (hl : l ≠ .crash ∧ ∀ io, l ≠ .restart io) (ht : s.step l = some t) :
    t.storageFile.good = false ∧ t.history = s.history := by
  cases l with
  | storeEvent event write flush =>
    cases ht
    simp [storeEvent, OutStream.write, hbad]
  | flush io =>
    cases ht
    simp [OutStream.flush, hbad]
  | restart io => exact absurd rfl (hl.2 io)
  | crash => exact absurd rfl hl.1
  | debris bytes =>
    rw [step] at ht
    split at ht
    · cases ht
    · cases ht
      exact ⟨hbad, rfl⟩

/-- Nothing that has reached the file is taken back. -/
theorem disk_run {ls : List StorageLabel} (hr : storageProcesses.run s ls = some t) :
    s.storageFile.disk <+: t.storageFile.disk := by
  refine Machine.run_invariant (I := fun r ↦ s.storageFile.disk <+: r.storageFile.disk) ?_
    List.prefix_rfl (fun _ _ ↦ trivial) hr
  intro r l r' hprefix _ hstep
  exact hprefix.trans (disk_step hstep)

end StorageProcess

/-- What has reached the log stays, and a failed disk is final. In every run, with crashes,
restarts and failures at any point, whatever a reader finds in the file now it finds there for
ever, first and in the same order; and once a write or a flush has failed, no event is stored any
more before the process is started again. -/
theorem log_only_grows (s t : StorageProcess) (ls : List StorageLabel)
    (hr : storageProcesses.run s ls = some t) :
    readLog s.storageFile.disk <+: readLog t.storageFile.disk ∧
    (s.storageFile.good = false → (∀ l ∈ ls, l ≠ .crash ∧ ∀ io, l ≠ .restart io) →
      t.history = s.history) := by
  constructor
  · obtain ⟨rest, hrest⟩ := StorageProcess.disk_run hr
    rw [← hrest]
    exact recordLog.readAll_append _ _
  · intro hbad hls
    have hkept : t.storageFile.good = false ∧ t.history = s.history := by
      refine Machine.run_invariant
        (I := fun r ↦ r.storageFile.good = false ∧ r.history = s.history) ?_ ⟨hbad, rfl⟩ hls hr
      rintro r l r' ⟨hbad', hsame⟩ hl hstep
      obtain ⟨hstill, hhistory⟩ := StorageProcess.failed_step hbad' hl hstep
      exact ⟨hstill, hhistory.trans hsame⟩
    exact hkept.2

/-- A crash in the middle of a record leaves the one before it readable. -/
theorem log_only_grows_crash :
    let event : Event := ⟨⟨.udp, .low, 1, 5, 0, 1, 0⟩, [116], [], [], 0⟩
    let s : StorageProcess := ⟨⟨serialize event, serialize event, true⟩, 2, [event, event]⟩
    ∃ t, storageProcesses.run s [.flush ⟨3, false⟩, .crash, .flush ⟨0, true⟩] = some t ∧
      readLog (serialize event) <+: readLog t.storageFile.disk := by
  intro event s
  exact ⟨_, rfl, (log_only_grows s _ [.flush ⟨3, false⟩, .crash, .flush ⟨0, true⟩] rfl).1⟩

/-- A flush is a barrier. In a run in which the earlier processes on the file ended in order, after
a flush that has succeeded, by a call of `flush` or by the destructor when a process ends, every
event stored until then, by this process or by an earlier one, is found in the file for ever, in
order and before everything else, whatever follows: crashes in the middle of a record, restarts and
disks that fail. -/
theorem flushed_events_stay (s t : StorageProcess)
    (h : storageProcesses.ReachableWith StorageProcess.Orderly s) (io : Io)
    (hgood : (s.storageFile.flush io).good) (l : StorageLabel)
    (hl : l = .flush io ∨ l = .restart io) (ls : List StorageLabel)
    (hr : storageProcesses.run s (l :: ls) = some t) :
    s.history.map recordOf <+: readLog t.storageFile.disk := by
  have hinv : s.Inv :=
    h.invariant StorageProcess.Inv.initial fun _ _ _ hi hg hs ↦ hi.step hg hs
  -- a stream that has failed does not become good by a flush
  have hbefore : s.storageFile.good := by
    unfold OutStream.flush at hgood
    split at hgood <;> assumption
  have hwhole : (s.storageFile.flush io).disk = StorageProcess.log s.history := by
    rw [(OutStream.buffer_flush hgood).1]
    exact hinv.kept.all hbefore
  obtain ⟨r, hstep, hrest⟩ := Option.bind_eq_some_iff.mp hr
  have hdisk : (s.storageFile.flush io).disk <+: t.storageFile.disk := by
    rcases hl with rfl | rfl
    · cases hstep
      exact StorageProcess.disk_run hrest
    · cases hstep
      exact StorageProcess.disk_run hrest
  obtain ⟨more, hmore⟩ := hdisk
  have hvalid : ∀ record ∈ s.history.map recordOf, recordLog.Valid record :=
    List.forall_mem_map.mpr hinv.kept.fits
  have hread := recordLog.readAll_append (StorageProcess.log s.history) more
  rw [← hwhole, hmore, hwhole, StorageProcess.log, recordLog.readAll_writeAll hvalid] at hread
  exact hread

/-- One event is stored, the process ends in order, and the next one crashes in the middle of its
first record. -/
theorem flushed_events_stay_crash :
    let first : Event := ⟨⟨.udp, .low, 1, 5, 0, 1, 0⟩, [116], [], [], 0⟩
    let second : Event := ⟨⟨.tcp, .high, 2, 6, 3, 2, 0⟩, [116, 117], [7, 8, 9], [], 0⟩
    ∃ t, storageProcesses.run (storageProcesses.start.storeEvent first ⟨3, true⟩ ⟨0, true⟩)
      [.restart ⟨0, true⟩, .storeEvent second ⟨14, true⟩ ⟨0, true⟩, .crash] = some t ∧
    [recordOf first] <+: readLog t.storageFile.disk := by
  intro first second
  let s := storageProcesses.start.storeEvent first ⟨3, true⟩ ⟨0, true⟩
  have hfits : (recordOf first).Fits := by
    simp [first, recordOf, StoredRecord.Fits]
  have hreach : storageProcesses.ReachableWith StorageProcess.Orderly s :=
    .next (l := .storeEvent first ⟨3, true⟩ ⟨0, true⟩) .start hfits rfl
  exact ⟨_, rfl, flushed_events_stay s _ hreach ⟨0, true⟩ rfl (.restart ⟨0, true⟩) (.inr rfl)
    [.storeEvent second ⟨14, true⟩ ⟨0, true⟩, .crash] rfl⟩

end EventStreamCore.Storage
