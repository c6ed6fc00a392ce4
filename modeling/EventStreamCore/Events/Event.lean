import Mathlib.Algebra.Ring.Nat

/-!
# Events

Data model of `include/eventstream/core/events/event.hpp:11–53`. Strings are byte
strings and an `unordered_map` of strings is an association list. Enumerations keep
the source's order; `EventPriority` also keeps its numeric values, which the wire
format and the routing comparison use.
-/

namespace EventStreamCore.Events

/-- Byte strings: `std::string` and `std::vector<uint8_t>`. -/
abbrev Bytes := List UInt8

instance : LawfulBEq Bytes := inferInstanceAs (LawfulBEq (List UInt8))

/-- Where an event came from; `event.hpp:11–18`. -/
inductive EventSourceType where
  | tcp | udp | file | internal | plugin | python
deriving DecidableEq, Repr

/-- Client or table priority; `event.hpp:20–26`. -/
inductive EventPriority where
  | batch | low | medium | high | critical
deriving DecidableEq, Repr

namespace EventPriority

/-- The enumerator's value, `BATCH = 0` to `CRITICAL = 4`. -/
def toNat : EventPriority → Nat
  | batch => 0
  | low => 1
  | medium => 2
  | high => 3
  | critical => 4

/-- `static_cast<EventPriority>` of an in-range byte; larger bytes name no enumerator. -/
def ofByte? (b : UInt8) : Option EventPriority :=
  match b.toNat with
  | 0 => some batch
  | 1 => some low
  | 2 => some medium
  | 3 => some high
  | 4 => some critical
  | _ => none

/-- Casting a byte yields the enumerator with that value. -/
theorem ofByte?_eq_some_iff (b : UInt8) (p : EventPriority) :
    ofByte? b = some p ↔ b.toNat = p.toNat := by
  unfold ofByte?
  constructor
  · intro h
    split at h <;> simp_all <;> subst h <;> rfl
  · intro h
    rw [h]
    cases p <;> rfl

/-- Exactly the bytes up to `CRITICAL` name an enumerator. -/
theorem ofByte?_isSome_iff (b : UInt8) : (ofByte? b).isSome = true ↔ b.toNat ≤ critical.toNat := by
  unfold ofByte?
  simp only [toNat]
  split <;> simp_all
  omega

end EventPriority

/-- Fixed-size event fields; `event.hpp:28–36`. -/
structure EventHeader where
  sourceType : EventSourceType
  priority : EventPriority
  id : UInt32
  timestamp : UInt64
  bodyLen : UInt32
  topicLen : UInt16
  crc32 : UInt32
deriving DecidableEq, Repr

/-- An event with its payload; `event.hpp:38–53`. -/
structure Event where
  header : EventHeader
  topic : Bytes
  body : Bytes
  metadata : List (Bytes × Bytes)
  dequeueTimeNs : UInt64
deriving DecidableEq, Repr

/-- `Event()`, a value-initialised event. -/
def Event.initial : Event := ⟨⟨.tcp, .batch, 0, 0, 0, 0, 0⟩, [], [], [], 0⟩

end EventStreamCore.Events
