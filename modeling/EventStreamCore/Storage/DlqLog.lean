import EventStreamCore.Lib.Fields
import EventStreamCore.Events.Event
import Mathlib.Data.List.Forall2
import Mathlib.Data.List.ReduceOption

/-!
# The log of dropped events

`StorageEngine::appendDLQ` and `getDLQStats`, `src/core/storage/storage.cpp:110–166`. Each event
is to be logged as one line, `[timestamp] DROPPED: id=X topic=Y priority=Z reason=W`. The line is
formatted into a buffer of 512 bytes, which cuts off long lines together with their newline, and
the count of dropped events includes null pointers, which have no line.
-/

namespace EventStreamCore.Storage
open EventStreamCore.Lib EventStreamCore.Events

/-- The letter that ends a line. -/
def newline : UInt8 := 10

/-- The members `appendDLQ` works on; `storage.hpp:31–36`. -/
structure DlqLog where
  isOpen : Bool
  dlqFile : Bytes
  dlqCount : UInt64
  lastDlqReason : Bytes
  lastDlqTimestampMs : UInt64
deriving DecidableEq, Repr

/-- `DLQStats`. -/
structure DlqStats where
  totalDropped : UInt64
  lastDropReason : Bytes
  lastDropTimestampMs : UInt64
deriving DecidableEq, Repr

/-- A call of `appendDLQ` with the clock's answers, in seconds and in milliseconds. -/
structure DlqCall where
  timestamp : Int
  timestampMs : UInt64
  events : List (Option Event)
  reason : Bytes

/-- The format of a line, without its newline. -/
def dlqText (timestamp : Int) (id : UInt32) (topic : Bytes) (priority : EventPriority)
    (reason : Bytes) : Bytes :=
  literal "[" ++ decimalInt timestamp ++ literal "] DROPPED: id=" ++ decimal id.toNat ++
    literal " topic=" ++ topic ++ literal " priority=" ++ decimal priority.toNat ++
    literal " reason=" ++ reason

/-- What `%s` prints of a string's `c_str()`. -/
def cString (s : Bytes) : Bytes := s.takeWhile (· != 0)

/-- The string that `snprintf` leaves in a buffer of the given size. -/
def snprintf (size : Nat) (formatted : Bytes) : Bytes := formatted.take (size - 1)

/-- What the call formats for an event. -/
def DlqCall.text (call : DlqCall) (evt : Event) : Bytes :=
  dlqText call.timestamp evt.header.id (cString evt.topic) evt.header.priority
    (cString call.reason)

namespace DlqLog

/-- An engine whose log does not exist yet. -/
def initial : DlqLog := ⟨false, [], 0, [], 0⟩

/-- `getDLQStats`. -/
def getDLQStats (s : DlqLog) : DlqStats :=
  ⟨s.dlqCount, s.lastDlqReason, s.lastDlqTimestampMs⟩

/-- The loop over the events; a null pointer is passed over. -/
def writeEvents (call : DlqCall) (dlqFile : Bytes) : List (Option Event) → Bytes
  | [] => dlqFile
  | none :: events => writeEvents call dlqFile events
  | some evt :: events =>
    writeEvents call (dlqFile ++ snprintf 512 (call.text evt ++ [newline])) events

/-- `appendDLQ`; `opens` tells whether the log can be opened when it is not open yet. -/
def appendDLQ (s : DlqLog) (opens : Bool) (call : DlqCall) : DlqLog :=
  if call.events.isEmpty then s
  else if !s.isOpen && !opens then s
  else
    ⟨true, writeEvents call s.dlqFile call.events,
      s.dlqCount + UInt64.ofNat call.events.length, call.reason, call.timestampMs⟩

/-- The engine after calls that all can open the log. -/
def run (s : DlqLog) (calls : List DlqCall) : DlqLog :=
  calls.foldl (fun s call ↦ s.appendDLQ true call) s

end DlqLog

/-! ### What the file holds -/

/-- The events of a call that are not null. -/
def DlqCall.dropped (call : DlqCall) : List Event := call.events.reduceOption

/-- The dropped events of a sequence of calls, each with its call. -/
def drops (calls : List DlqCall) : List (DlqCall × Event) :=
  calls.flatMap fun call ↦ call.dropped.map (call, ·)

/-- The null pointers in a sequence of calls. -/
def nulls (calls : List DlqCall) : Nat :=
  (calls.map fun call ↦ call.events.countP Option.isNone).sum

/-- The texts that a sequence of calls formats. -/
def texts (calls : List DlqCall) : List Bytes := (drops calls).map fun d ↦ d.1.text d.2

private theorem texts_cons (call : DlqCall) (calls : List DlqCall) :
    texts (call :: calls) = call.dropped.map call.text ++ texts calls := by
  rw [texts, drops, List.flatMap_cons, List.map_append, List.map_map]
  rfl

private theorem writeEvents_eq (call : DlqCall) (dlqFile : Bytes) (events : List (Option Event)) :
    DlqLog.writeEvents call dlqFile events =
      dlqFile ++ cutTerminated newline 511 (events.reduceOption.map call.text) := by
  induction events generalizing dlqFile with
  | nil => exact (List.append_nil dlqFile).symm
  | cons event events ih =>
    cases event with
    | none => exact ih dlqFile
    | some evt =>
      rw [DlqLog.writeEvents, ih, List.append_assoc, List.reduceOption_cons_of_some]
      rfl

private theorem appendDLQ_eq (s : DlqLog) (call : DlqCall) :
    (s.appendDLQ true call).dlqFile =
        s.dlqFile ++ cutTerminated newline 511 (call.dropped.map call.text) ∧
      (s.appendDLQ true call).dlqCount = s.dlqCount + UInt64.ofNat call.events.length := by
  rw [DlqLog.appendDLQ]
  split
  · next hempty =>
    rw [DlqCall.dropped, List.isEmpty_iff.mp hempty]
    exact ⟨(List.append_nil s.dlqFile).symm, (UInt64.add_zero s.dlqCount).symm⟩
  · rw [Bool.not_true, Bool.and_false, if_neg Bool.false_ne_true]
    exact ⟨writeEvents_eq call s.dlqFile call.events, rfl⟩

private theorem length_events (call : DlqCall) :
    call.events.length = call.dropped.length + call.events.countP Option.isNone := by
  rw [DlqCall.dropped, List.reduceOption_length_eq, ← List.countP_eq_length_filter,
    List.length_eq_countP_add_countP Option.isSome]
  congr 2
  funext event
  cases event <;> rfl

private theorem length_drops_cons (call : DlqCall) (calls : List DlqCall) :
    (drops (call :: calls)).length = call.dropped.length + (drops calls).length := by
  rw [drops, List.flatMap_cons, List.length_append, List.length_map]
  rfl

/-- The file is what is left of the formatted lines in a buffer of 511 letters; the count is that
of all pointers, null pointers too. -/
theorem DlqLog.run_eq (calls : List DlqCall) (s : DlqLog) :
    (s.run calls).dlqFile = s.dlqFile ++ cutTerminated newline 511 (texts calls) ∧
      (s.run calls).dlqCount =
        s.dlqCount + UInt64.ofNat ((drops calls).length + nulls calls) := by
  induction calls generalizing s with
  | nil => exact ⟨(List.append_nil s.dlqFile).symm, (UInt64.add_zero s.dlqCount).symm⟩
  | cons call calls ih =>
    obtain ⟨hfile, hcount⟩ := ih (s.appendDLQ true call)
    obtain ⟨hfile', hcount'⟩ := appendDLQ_eq s call
    constructor
    · rw [DlqLog.run, List.foldl_cons]
      change ((s.appendDLQ true call).run calls).dlqFile = _
      rw [hfile, hfile', texts_cons, cutTerminated, cutTerminated, cutTerminated,
        List.flatMap_append, List.append_assoc]
    · rw [DlqLog.run, List.foldl_cons]
      change ((s.appendDLQ true call).run calls).dlqCount = _
      have hpointers : (drops (call :: calls)).length + nulls (call :: calls) =
          call.events.length + ((drops calls).length + nulls calls) := by
        rw [length_drops_cons, length_events, nulls, List.map_cons, List.sum_cons, ← nulls]
        omega
      rw [hcount, hcount', hpointers, UInt64.ofNat_add call.events.length, UInt64.add_assoc]

/-! ### When the log is complete -/

/-- The line of an event, for some time. -/
def Carries (d : DlqCall × Event) (line : Bytes) : Prop :=
  ∃ timestamp, line =
    dlqText timestamp d.2.header.id d.2.topic d.2.header.priority d.1.reason

/-- The file consists of one line for each event that was not null, in order, and the statistics
count these lines in 64 bits. -/
def Complete (s : DlqLog) (calls : List DlqCall) : Prop :=
  (∃ ls, s.dlqFile = terminated newline ls ∧ List.Forall₂ Carries (drops calls) ls) ∧
    s.getDLQStats.totalDropped = UInt64.ofNat (drops calls).length

/-- A call whose reason can be printed, if it has an event, and whose lines fit the buffer. -/
def DlqCall.Fits (call : DlqCall) : Prop :=
  ∀ evt, some evt ∈ call.events → 0 ∉ call.reason ∧
    (decimalInt call.timestamp).length + (decimal evt.header.id.toNat).length +
      evt.topic.length + call.reason.length ≤ 469

theorem mem_drops {calls : List DlqCall} {call : DlqCall} {evt : Event} :
    (call, evt) ∈ drops calls ↔ call ∈ calls ∧ some evt ∈ call.events := by
  rw [drops, List.mem_flatMap]
  constructor
  · rintro ⟨call', hcall, hmem⟩
    obtain ⟨evt', hevt, heq⟩ := List.mem_map.mp hmem
    cases heq
    exact ⟨hcall, List.reduceOption_mem_iff.mp hevt⟩
  · rintro ⟨hcall, hevt⟩
    exact ⟨call, hcall, List.mem_map.mpr ⟨evt, List.reduceOption_mem_iff.mpr hevt, rfl⟩⟩

/-- The count is right exactly when the number of null pointers is a multiple of `2 ^ 64`. -/
theorem totalDropped_run_iff (calls : List DlqCall) :
    (DlqLog.initial.run calls).getDLQStats.totalDropped = UInt64.ofNat (drops calls).length ↔
      2 ^ 64 ∣ nulls calls := by
  have hcount := (DlqLog.run_eq calls DlqLog.initial).2
  change (DlqLog.initial.run calls).dlqCount = _ ↔ _
  rw [hcount, DlqLog.initial, UInt64.zero_add, UInt64.ofNat_add, UInt64.add_eq_left,
    UInt64.ofNat_eq_iff_mod_eq_toNat, Nat.dvd_iff_mod_eq_zero]
  rfl

private theorem priority_digit (priority : EventPriority) :
    (decimal priority.toNat).length = 1 := by
  cases priority <;> rfl

theorem length_dlqText (timestamp : Int) (id : UInt32) (topic reason : Bytes)
    (priority : EventPriority) : (dlqText timestamp id topic priority reason).length =
      (decimalInt timestamp).length + (decimal id.toNat).length + topic.length + reason.length +
        41 := by
  have h₁ : (literal "[").length = 1 := rfl
  have h₂ : (literal "] DROPPED: id=").length = 14 := rfl
  have h₃ : (literal " topic=").length = 7 := rfl
  have h₄ : (literal " priority=").length = 10 := rfl
  have h₅ : (literal " reason=").length = 8 := rfl
  simp only [dlqText, List.length_append, h₁, h₂, h₃, h₄, h₅, priority_digit]
  omega

-- NUL and newline come into a line only with the topic or the reason.
private theorem notMem_dlqText {c : UInt8} (hc : c = 0 ∨ c = newline) {topic reason : Bytes}
    (htopic : c ∉ topic) (hreason : c ∉ reason) (timestamp : Int) (id : UInt32)
    (priority : EventPriority) : c ∉ dlqText timestamp id topic priority reason := by
  have hdigits (n : Nat) : c ∉ decimal n := by
    intro hmem
    rcases hc with rfl | rfl <;> exact absurd (mem_decimal hmem).1 (by decide)
  have htime : c ∉ decimalInt timestamp := by
    apply notMem_decimalInt
    rcases hc with rfl | rfl <;> decide
  have h₁ : c ∉ literal "[" ∧ c ∉ literal "] DROPPED: id=" ∧ c ∉ literal " topic=" ∧
      c ∉ literal " priority=" ∧ c ∉ literal " reason=" := by
    rcases hc with rfl | rfl <;> decide
  simp only [dlqText, List.mem_append, h₁, htime, hdigits, htopic, hreason, or_self,
    not_false_eq_true]

private theorem zero_notMem_cString (s : Bytes) : 0 ∉ cString s := by
  intro hmem
  have hne := List.mem_takeWhile_imp hmem
  exact absurd hne (by decide)

/-- `%s` prints a string without NUL as it is. -/
theorem cString_of_notMem {s : Bytes} (h : 0 ∉ s) : cString s = s := by
  rw [cString, List.takeWhile_eq_self_iff]
  intro c hc
  exact bne_iff_ne.mpr fun heq ↦ h (heq ▸ hc)

private theorem notMem_cString {s : Bytes} {c : UInt8} (h : c ∉ s) : c ∉ cString s :=
  fun hmem ↦ h ((List.takeWhile_sublist _).mem hmem)

/-- What a call formats for an event with a printable topic and a printable reason. -/
theorem DlqCall.text_of_notMem {call : DlqCall} {evt : Event} (htopic : 0 ∉ evt.topic)
    (hreason : 0 ∉ call.reason) : call.text evt =
      dlqText call.timestamp evt.header.id evt.topic evt.header.priority call.reason := by
  rw [DlqCall.text, cString_of_notMem htopic, cString_of_notMem hreason]

-- The lines of a complete log have no newline of their own.
private theorem notMem_of_carries {calls : List DlqCall} {ls : List Bytes}
    (htopics : ∀ call ∈ calls, ∀ evt, some evt ∈ call.events →
      0 ∉ evt.topic ∧ newline ∉ evt.topic)
    (hreasons : ∀ call ∈ calls, newline ∉ call.reason)
    (hcarries : List.Forall₂ Carries (drops calls) ls) : ∀ l ∈ ls, newline ∉ l := by
  intro l hl
  obtain ⟨i, hi, rfl⟩ := List.getElem_of_mem hl
  have hd : i < (drops calls).length := hcarries.length_eq ▸ hi
  obtain ⟨timestamp, hline⟩ := hcarries.get hd hi
  obtain ⟨hcall, hevt⟩ := mem_drops.mp (List.getElem_mem hd)
  rw [List.get_eq_getElem] at hline
  rw [hline]
  exact notMem_dlqText (Or.inr rfl) (htopics _ hcall _ hevt).2 (hreasons _ hcall) _ _ _

-- A text that carries the whole reason shows that the reason has no NUL.
private theorem reason_of_carries {call : DlqCall} {evt : Event}
    (h : Carries (call, evt) (call.text evt)) : 0 ∉ call.reason := by
  obtain ⟨timestamp, hline⟩ := h
  have htext : 0 ∉ call.text evt := notMem_dlqText (Or.inl rfl) (zero_notMem_cString _)
    (zero_notMem_cString _) _ _ _
  intro hmem
  apply htext
  rw [hline, dlqText]
  exact List.mem_append_right _ hmem

/-- For calls whose topics have no NUL or newline and whose reasons have no newline: the log is
complete exactly when the number of null pointers is a multiple of `2 ^ 64`, which it is without
any, and each call that has an event has a reason without NUL and leaves its timestamp, id, topic
and reason 469 letters of the buffer. -/
theorem run_complete_iff (calls : List DlqCall)
    (htopics : ∀ call ∈ calls, ∀ evt, some evt ∈ call.events →
      0 ∉ evt.topic ∧ newline ∉ evt.topic)
    (hreasons : ∀ call ∈ calls, newline ∉ call.reason) :
    Complete (DlqLog.initial.run calls) calls ↔
      2 ^ 64 ∣ nulls calls ∧ ∀ call ∈ calls, call.Fits := by
  have hfile := (DlqLog.run_eq calls DlqLog.initial).1
  have htexts : ∀ l ∈ texts calls, newline ∉ l := by
    intro l hl
    obtain ⟨⟨call, evt⟩, hdrop, rfl⟩ := List.mem_map.mp hl
    obtain ⟨hcall, hevt⟩ := mem_drops.mp hdrop
    exact notMem_dlqText (Or.inr rfl) (notMem_cString (htopics call hcall evt hevt).2)
      (notMem_cString (hreasons call hcall)) _ _ _
  rw [DlqLog.initial, List.nil_append] at hfile
  change (DlqLog.initial.run calls).dlqFile = _ at hfile
  rw [Complete, totalDropped_run_iff, hfile, and_comm]
  apply and_congr_right
  intro _
  constructor
  · rintro ⟨ls, hls, hcarries⟩ call hcall evt hevt
    have hlength : ls.length = (texts calls).length := by
      rw [texts, List.length_map, hcarries.length_eq]
    have hlines := notMem_of_carries htopics hreasons hcarries
    obtain ⟨rfl, hfits⟩ := (cutTerminated_eq_terminated_iff htexts hlines hlength).mp hls
    rw [texts, List.forall₂_map_right_iff, List.forall₂_same] at hcarries
    have hdrop := mem_drops.mpr ⟨hcall, hevt⟩
    have hreason := reason_of_carries (hcarries (call, evt) hdrop)
    have hlt := hfits (call.text evt) (List.mem_map.mpr ⟨(call, evt), hdrop, rfl⟩)
    rw [DlqCall.text_of_notMem (htopics call hcall evt hevt).1 hreason, length_dlqText] at hlt
    exact ⟨hreason, by omega⟩
  · intro hfits
    refine ⟨texts calls, ?_, ?_⟩
    · apply cutTerminated_of_lt
      intro l hl
      obtain ⟨⟨call, evt⟩, hdrop, rfl⟩ := List.mem_map.mp hl
      obtain ⟨hcall, hevt⟩ := mem_drops.mp hdrop
      obtain ⟨hreason, hroom⟩ := hfits call hcall evt hevt
      rw [DlqCall.text_of_notMem (htopics call hcall evt hevt).1 hreason, length_dlqText]
      omega
    · rw [texts, List.forall₂_map_right_iff, List.forall₂_same]
      rintro ⟨call, evt⟩ hdrop
      obtain ⟨hcall, hevt⟩ := mem_drops.mp hdrop
      exact ⟨call.timestamp, DlqCall.text_of_notMem (htopics call hcall evt hevt).1
        (hfits call hcall evt hevt).1⟩

/-- The log of one event with a short topic is complete. -/
theorem run_complete_iff_short :
    let call : DlqCall :=
      ⟨1700000000, 1700000000000, [some { Event.initial with topic := literal "t" }],
        literal "Backpressure CRITICAL"⟩
    Complete (DlqLog.initial.run [call]) [call] := by
  intro call
  have hcalls (p : DlqCall → Prop) (h : p call) : ∀ c ∈ [call], p c :=
    List.forall_mem_singleton.mpr h
  have hevents (p : Event → Prop) (h : p { Event.initial with topic := literal "t" }) :
      ∀ evt, some evt ∈ call.events → p evt := by
    intro evt hevt
    cases List.mem_singleton.mp hevt
    exact h
  apply (run_complete_iff [call] (hcalls _ (hevents _ (by decide))) (hcalls _ (by decide))).mpr
  exact ⟨by decide, hcalls _ (hevents _ (by decide))⟩

/-- Two calls within the frame format's limits whose log is not complete: the line of a topic of
600 letters loses its newline, and a null pointer is counted without a line. -/
theorem appendDLQ_incomplete :
    let long : DlqCall :=
      ⟨1700000000, 1700000000000, [some { Event.initial with topic := List.replicate 600 116 }],
        literal "Test drop"⟩
    let null : DlqCall := ⟨1700000000, 1700000000000, [none], literal "Test drop"⟩
    ¬ Complete (DlqLog.initial.run [long]) [long] ∧
      ¬ Complete (DlqLog.initial.run [null]) [null] := by
  intro long null
  constructor
  · rintro ⟨⟨ls, hls, hcarries⟩, -⟩
    have hfile : newline ∉ (DlqLog.initial.run [long]).dlqFile := by decide +kernel
    have hone : ls.length = 1 := hcarries.length_eq.symm
    obtain ⟨l, rfl⟩ := List.length_eq_one_iff.mp hone
    rw [hls] at hfile
    exact hfile (List.mem_append_left _ (List.mem_append_right l List.mem_cons_self))
  · rintro ⟨-, hcount⟩
    exact absurd hcount (by decide)

end EventStreamCore.Storage
