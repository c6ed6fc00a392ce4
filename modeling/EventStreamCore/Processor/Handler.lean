import EventStreamCore.Events.Event

/-!
# Event handlers

`EventHandler` and its registry, `include/eventstream/core/processor/handler.hpp:13–105,175–194`,
with the alert levels of `alert.hpp:11`. A registry lists its entries in the iteration order of
the `unordered_map`. A registered handler may keep state of its own, so what `handle` answers
may differ from one attempt on an event to the next.
-/

namespace EventStreamCore.Processor
open EventStreamCore.Events

/-- `ValidationResult`. -/
structure ValidationResult where
  valid : Bool
  error : String
deriving DecidableEq, Repr

namespace ValidationResult

/-- `ValidationResult::ok`. -/
def ok : ValidationResult := ⟨true, ""⟩

/-- `ValidationResult::fail`. -/
def fail (msg : String) : ValidationResult := ⟨false, msg⟩

end ValidationResult

/-- `HandleOutcome`. -/
inductive HandleOutcome where
  | success | fail | alert | drop
deriving DecidableEq, Repr

/-- `AlertLevel`. -/
inductive AlertLevel where
  | info | warning | critical | emergency
deriving DecidableEq, Repr

/-- `HandleResult`. -/
structure HandleResult where
  outcome : HandleOutcome
  alertLevel : AlertLevel
  message : String
deriving DecidableEq, Repr

/-- `HandleResult::success`. -/
def HandleResult.success (msg : String) : HandleResult := ⟨.success, .info, msg⟩

/-- Does the retry loop of `TransactionalProcessor::process` take this outcome? -/
def HandleOutcome.accepts : HandleOutcome → Bool
  | .success | .alert => true
  | .fail | .drop => false

/-- The virtual functions of `EventHandler`; `handle` is given the number of the attempt. -/
structure EventHandler where
  validate : Event → ValidationResult
  checkRules : Event → ValidationResult
  handle : Event → Nat → HandleResult

/-- `EventHandler::validate`, unless overridden. -/
def EventHandler.defaultValidate (event : Event) : ValidationResult :=
  if event.topic.isEmpty then .fail "empty topic" else .ok

/-- `EventHandler::checkRules`, unless overridden. -/
def EventHandler.defaultCheckRules (_ : Event) : ValidationResult := .ok

/-- `DefaultEventHandler`. -/
def defaultEventHandler : EventHandler :=
  ⟨EventHandler.defaultValidate, EventHandler.defaultCheckRules, fun _ _ ↦ .success ""⟩

/-- `AuditEventHandler`, registered by the application for its audit topics. -/
def auditEventHandler : EventHandler where
  validate event := if event.body.isEmpty then .fail "empty audit log body" else .ok
  checkRules := EventHandler.defaultCheckRules
  handle _ _ := .success ""

/-- The entries of an `EventHandlerRegistry`. -/
abbrev EventHandlerRegistry := List (Bytes × EventHandler)

namespace EventHandlerRegistry

/-- `registerHandler`: a registered key gets the new handler, a new key may come first. -/
def registerHandler (handlers : EventHandlerRegistry) (topicPrefix : Bytes)
    (handler : EventHandler) : EventHandlerRegistry :=
  if (handlers.lookup topicPrefix).isSome then
    handlers.map fun (key, old) ↦ (key, if key = topicPrefix then handler else old)
  else (topicPrefix, handler) :: handlers

/-- `clear`. -/
def clear (_ : EventHandlerRegistry) : EventHandlerRegistry := []

/-- `getHandler`: the exact key, else the longest key the loop accepts as a beginning of the
topic. -/
def getHandler (handlers : EventHandlerRegistry) (topic : Bytes) : Option EventHandler :=
  match handlers.lookup topic with
  | some handler => some handler
  | none =>
    (handlers.foldl (fun (best, bestLen) (key, handler) ↦
      if key.isPrefixOf topic ∧ key.length > bestLen then (some handler, key.length)
      else (best, bestLen)) (none, 0)).1

/-- `getOrDefault`. -/
def getOrDefault (handlers : EventHandlerRegistry) (topic : Bytes) : EventHandler :=
  (handlers.getHandler topic).getD defaultEventHandler

end EventHandlerRegistry
end EventStreamCore.Processor
