import EventStreamCore.Processor.Handler

/-!
# Handlers that read the body

`SensorTemperatureHandler`, `SensorPressureHandler` and `PaymentEventHandler`,
`include/eventstream/core/processor/handler.hpp:103–173`, check the length of the body in
`validate` only; `checkRules` and `handle` access it without a check. A handler of the registry
is an object with an identity: two objects of one class are different handlers.
-/

namespace EventStreamCore.Processor
open EventStreamCore.Events

/-- The virtual functions of an `EventHandler`; `checkRules` and `handle` have no result when they
read outside the body of the event. -/
structure BodyHandler where
  validate : Event → ValidationResult
  checkRules : Event → Option ValidationResult
  handle : Event → Nat → Option HandleResult

namespace BodyHandler

/-- A handler that never reads outside the body. -/
def ofEventHandler (handler : EventHandler) : BodyHandler :=
  ⟨handler.validate, fun e ↦ some (handler.checkRules e), fun e n ↦ some (handler.handle e n)⟩

/-- The handler as its callers see it. What follows a read outside the body is undefined, and
the answer in its place arbitrary. -/
def toEventHandler (handler : BodyHandler) : EventHandler where
  validate := handler.validate
  checkRules e := (handler.checkRules e).getD .ok
  handle e n := (handler.handle e n).getD (.success "")

/-- A handler is safe on the events that it validates. -/
def Guarded (handler : BodyHandler) : Prop :=
  ∀ e, (handler.validate e).valid → (handler.checkRules e).isSome ∧
    ∀ n, (handler.handle e n).isSome

end BodyHandler

/-- `event.body[0]`. -/
def firstByte (event : Event) : Option UInt8 := event.body[0]?

/-- `std::memcpy(&amount, event.body.data(), sizeof(uint32_t))` on a little-endian machine. -/
def readAmount (event : Event) : Option UInt32 :=
  match event.body with
  | b₀ :: b₁ :: b₂ :: b₃ :: _ =>
    some (.ofNat (b₀.toNat + 256 * b₁.toNat + 65536 * b₂.toNat + 16777216 * b₃.toNat))
  | _ => none

/-- `SensorTemperatureHandler`. -/
def sensorTemperatureHandler : BodyHandler where
  validate event := if event.body.isEmpty then .fail "empty body for temperature sensor" else .ok
  checkRules event := do
    let temp ← firstByte event
    return if temp > 150 then .fail "temperature out of physical range" else .ok
  handle event _ := do
    let temp ← firstByte event
    return if temp > 100 then
        ⟨.alert, .critical, "Temperature critical: " ++ toString temp.toNat ++ "C"⟩
      else if temp > 80 then
        ⟨.alert, .warning, "Temperature warning: " ++ toString temp.toNat ++ "C"⟩
      else .success ""

/-- `SensorPressureHandler`. -/
def sensorPressureHandler : BodyHandler where
  validate event := if event.body.isEmpty then .fail "empty body for pressure sensor" else .ok
  checkRules event := some (EventHandler.defaultCheckRules event)
  handle event _ := do
    let pressure ← firstByte event
    return if pressure > 200 then
        ⟨.alert, .emergency, "Pressure emergency: " ++ toString pressure.toNat ++ " bar"⟩
      else if pressure > 150 then
        ⟨.alert, .warning, "Pressure high: " ++ toString pressure.toNat ++ " bar"⟩
      else .success ""

/-- `PaymentEventHandler`. -/
def paymentEventHandler : BodyHandler where
  validate event := if event.body.length < 4 then .fail "payment body too short" else .ok
  checkRules event := do
    let amount ← readAmount event
    return if amount = 0 then .fail "payment amount is zero"
      else if amount > 1000000 then .fail "payment amount exceeds limit"
      else .ok
  handle event _ := do
    let amount ← readAmount event
    return .success ("payment_ok amount=" ++ toString amount.toNat)

theorem firstByte_isSome {event : Event} (h : event.body ≠ []) : (firstByte event).isSome := by
  unfold firstByte
  cases hb : event.body with
  | nil => exact absurd hb h
  | cons b rest => rfl

theorem readAmount_isSome {event : Event} (h : 4 ≤ event.body.length) :
    (readAmount event).isSome := by
  unfold readAmount
  split
  · rfl
  · next hshort =>
    rcases hb : event.body with _ | ⟨b₀, _ | ⟨b₁, _ | ⟨b₂, _ | ⟨b₃, rest⟩⟩⟩⟩
    case cons.cons.cons.cons => exact absurd hb (hshort b₀ b₁ b₂ b₃ rest)
    all_goals
      rw [hb] at h
      simp at h

/-- A non-empty body suffices for the temperature sensor. -/
theorem sensorTemperatureHandler_guarded : sensorTemperatureHandler.Guarded := by
  intro e hvalid
  have hbody : e.body ≠ [] := by
    intro hnil
    simp [sensorTemperatureHandler, hnil, ValidationResult.fail] at hvalid
  obtain ⟨temp, htemp⟩ := Option.isSome_iff_exists.mp (firstByte_isSome hbody)
  simp [sensorTemperatureHandler, htemp]

/-- A non-empty body suffices for the pressure sensor. -/
theorem sensorPressureHandler_guarded : sensorPressureHandler.Guarded := by
  intro e hvalid
  have hbody : e.body ≠ [] := by
    intro hnil
    simp [sensorPressureHandler, hnil, ValidationResult.fail] at hvalid
  obtain ⟨pressure, hpressure⟩ := Option.isSome_iff_exists.mp (firstByte_isSome hbody)
  simp [sensorPressureHandler, hpressure]

/-- Four bytes suffice for a payment. -/
theorem paymentEventHandler_guarded : paymentEventHandler.Guarded := by
  intro e hvalid
  have hbody : 4 ≤ e.body.length := by
    by_cases hshort : e.body.length < 4
    · simp [paymentEventHandler, hshort, ValidationResult.fail] at hvalid
    · omega
  obtain ⟨amount, hamount⟩ := Option.isSome_iff_exists.mp (readAmount_isSome hbody)
  simp [paymentEventHandler, hamount]

/-- A handler object: its address, unless it is the fallback of `getOrDefault`, and its virtual
functions. -/
structure HandlerObject where
  id : Option Nat
  impl : BodyHandler

/-- The handler as its callers see it. -/
def HandlerObject.handler (h : HandlerObject) : EventHandler := h.impl.toEventHandler

/-- The fallback of `getOrDefault`. -/
def fallback : HandlerObject := ⟨none, .ofEventHandler defaultEventHandler⟩

/-- An `EventHandlerRegistry` with the objects registered. -/
abbrev HandlerTable := List (Bytes × HandlerObject)

namespace HandlerTable

/-- The registry without the identities. -/
def toRegistry (handlers : HandlerTable) : EventHandlerRegistry :=
  handlers.map fun (key, h) ↦ (key, h.handler)

/-- `registerHandler`. -/
def registerHandler (handlers : HandlerTable) (topicPrefix : Bytes) (h : HandlerObject) :
    HandlerTable :=
  if (handlers.lookup topicPrefix).isSome then
    handlers.map fun (key, old) ↦ (key, if key = topicPrefix then h else old)
  else (topicPrefix, h) :: handlers

/-- `getHandler`. -/
def getHandler (handlers : HandlerTable) (topic : Bytes) : Option HandlerObject :=
  match handlers.lookup topic with
  | some h => some h
  | none =>
    (handlers.foldl (fun (best, bestLen) (key, h) ↦
      if key.isPrefixOf topic ∧ key.length > bestLen then (some h, key.length)
      else (best, bestLen)) (none, 0)).1

/-- `getOrDefault`. -/
def getOrDefault (handlers : HandlerTable) (topic : Bytes) : HandlerObject :=
  (handlers.getHandler topic).getD fallback

theorem lookup_toRegistry (handlers : HandlerTable) (topic : Bytes) :
    handlers.toRegistry.lookup topic = (handlers.lookup topic).map HandlerObject.handler := by
  induction handlers with
  | nil => rfl
  | cons entry handlers ih =>
    obtain ⟨key, h⟩ := entry
    rw [toRegistry, List.map_cons, List.lookup_cons, List.lookup_cons]
    cases topic == key with
    | true => rfl
    | false => exact ih

/-- The registry without the identities registers the same handlers, -/
theorem toRegistry_registerHandler (handlers : HandlerTable) (topicPrefix : Bytes)
    (h : HandlerObject) :
    (handlers.registerHandler topicPrefix h).toRegistry =
      handlers.toRegistry.registerHandler topicPrefix h.handler := by
  rw [registerHandler, EventHandlerRegistry.registerHandler, lookup_toRegistry, Option.isSome_map]
  split
  · rw [toRegistry, toRegistry, List.map_map, List.map_map]
    refine List.map_congr_left fun entry _ ↦ ?_
    simp only [Function.comp_apply]
    split <;> rfl
  · rfl

/-- and finds the same handlers. -/
theorem getHandler_toRegistry (handlers : HandlerTable) (topic : Bytes) :
    handlers.toRegistry.getHandler topic =
      (handlers.getHandler topic).map HandlerObject.handler := by
  have hscan : ∀ (entries : HandlerTable) (best : Option HandlerObject) (bestLen : Nat),
      (entries.toRegistry.foldl (fun best entry ↦
        if entry.1.isPrefixOf topic ∧ entry.1.length > best.2 then (some entry.2, entry.1.length)
        else (best.1, best.2)) (best.map HandlerObject.handler, bestLen)).1 =
      (entries.foldl (fun best entry ↦
        if entry.1.isPrefixOf topic ∧ entry.1.length > best.2 then (some entry.2, entry.1.length)
        else (best.1, best.2)) (best, bestLen)).1.map HandlerObject.handler := by
    intro entries
    induction entries with
    | nil => exact fun _ _ ↦ rfl
    | cons entry entries ih =>
      intro best bestLen
      rw [toRegistry, List.map_cons, List.foldl_cons, List.foldl_cons]
      by_cases hlonger : entry.1.isPrefixOf topic ∧ entry.1.length > bestLen
      · simp only [hlonger, and_self, if_true]
        exact ih (some entry.2) entry.1.length
      · simp only [if_neg hlonger]
        exact ih best bestLen
  rw [EventHandlerRegistry.getHandler, getHandler, lookup_toRegistry]
  cases handlers.lookup topic with
  | some h => rfl
  | none => exact hscan handlers none 0

/-- The callers of `getOrDefault` get the handler of the object it finds. -/
theorem getOrDefault_toRegistry (handlers : HandlerTable) (topic : Bytes) :
    EventHandlerRegistry.getOrDefault handlers.toRegistry topic =
      (handlers.getOrDefault topic).handler := by
  rw [EventHandlerRegistry.getOrDefault, getHandler_toRegistry, getOrDefault]
  cases handlers.getHandler topic <;> rfl

end HandlerTable
end EventStreamCore.Processor
