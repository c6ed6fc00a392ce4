import EventStreamCore.Processor.Handler
import Mathlib.Data.List.Nodup

/-!
# Looking up a handler

`EventHandlerRegistry::getHandler`, `include/eventstream/core/processor/handler.hpp:67–84`, is to
find the longest registered key that is a beginning of the topic, in whatever order the
`unordered_map` is visited. The loop starts with the length zero and takes longer keys only, so
it never takes the empty key.
-/

namespace EventStreamCore.Processor
open EventStreamCore.Events

namespace EventHandlerRegistry

/-- The keys of a registry. -/
def keys (handlers : EventHandlerRegistry) : List Bytes := handlers.map Prod.fst

/-- The handler is registered under the longest key that is a beginning of the topic. -/
def IsLongestPrefix (handlers : EventHandlerRegistry) (topic key : Bytes)
    (handler : EventHandler) : Prop :=
  (key, handler) ∈ handlers ∧ key <+: topic ∧
    ∀ k ∈ handlers.keys, k <+: topic → k.length ≤ key.length

/-- In every order of the entries, the lookup finds the handler of the longest key that is a
beginning of the topic, finds none exactly when there is no such key, and finds the same. -/
def FindsLongestPrefix (handlers : EventHandlerRegistry) (topic : Bytes) : Prop :=
  ∀ order : EventHandlerRegistry, order.Perm handlers →
    (∀ key handler, handlers.IsLongestPrefix topic key handler →
      order.getHandler topic = some handler) ∧
    (order.getHandler topic = none ↔ ∀ key ∈ handlers.keys, ¬ key <+: topic) ∧
    order.getHandler topic = handlers.getHandler topic

variable {handlers : EventHandlerRegistry} {topic : Bytes}

theorem mem_keys {key : Bytes} : key ∈ handlers.keys ↔ ∃ handler, (key, handler) ∈ handlers := by
  simp [keys]

/-- A key of the registry has one handler. -/
theorem handler_unique (hk : handlers.keys.Nodup) {key : Bytes} {h₁ h₂ : EventHandler}
    (m₁ : (key, h₁) ∈ handlers) (m₂ : (key, h₂) ∈ handlers) : h₁ = h₂ :=
  congrArg Prod.snd (List.inj_on_of_nodup_map hk m₁ m₂ rfl)

/-- The longest beginning of a topic and its handler are determined. -/
theorem IsLongestPrefix.unique (hk : handlers.keys.Nodup) {key₁ key₂ : Bytes}
    {h₁ h₂ : EventHandler} (l₁ : handlers.IsLongestPrefix topic key₁ h₁)
    (l₂ : handlers.IsLongestPrefix topic key₂ h₂) : key₁ = key₂ ∧ h₁ = h₂ := by
  obtain ⟨m₁, p₁, max₁⟩ := l₁
  obtain ⟨m₂, p₂, max₂⟩ := l₂
  have hkey : key₁ = key₂ := by
    refine (List.prefix_of_prefix_length_le p₁ p₂ ?_).eq_of_length_le ?_
    · exact max₂ key₁ (mem_keys.mpr ⟨h₁, m₁⟩) p₁
    · exact max₁ key₂ (mem_keys.mpr ⟨h₂, m₂⟩) p₂
  subst hkey
  exact ⟨rfl, handler_unique hk m₁ m₂⟩

private theorem lookup_eq_some_iff (hk : handlers.keys.Nodup) {handler : EventHandler} :
    handlers.lookup topic = some handler ↔ (topic, handler) ∈ handlers := by
  constructor
  · intro h
    obtain ⟨l₁, l₂, rfl, -⟩ := List.lookup_eq_some_iff.mp h
    exact List.mem_append_right l₁ List.mem_cons_self
  · intro h
    cases hl : handlers.lookup topic with
    | none => simpa using List.lookup_eq_none_iff.mp hl _ h
    | some other =>
      obtain ⟨l₁, l₂, rfl, -⟩ := List.lookup_eq_some_iff.mp hl
      rw [handler_unique hk (List.mem_append_right l₁ List.mem_cons_self) h]

/-- The loop of `getHandler` from the given best key. -/
private def scan (topic : Bytes) (handlers : EventHandlerRegistry)
    (best : Option EventHandler × Nat) : Option EventHandler × Nat :=
  handlers.foldl (fun (best, bestLen) (key, handler) ↦
    if key.isPrefixOf topic ∧ key.length > bestLen then (some handler, key.length)
    else (best, bestLen)) best

private theorem scan_cons (e : Bytes × EventHandler) (best : Option EventHandler × Nat) :
    scan topic (e :: handlers) best = scan topic handlers
      (if e.1.isPrefixOf topic ∧ e.1.length > best.2 then (some e.2, e.1.length) else best) := rfl

/-- What the loop has found: no key longer than the best, and the best is the one it started
with or a longer one of the registry. -/
private theorem scan_spec (topic : Bytes) (handlers : EventHandlerRegistry)
    (best : Option EventHandler × Nat) :
    (∀ e ∈ handlers, e.1 <+: topic → e.1.length ≤ (scan topic handlers best).2) ∧
    best.2 ≤ (scan topic handlers best).2 ∧
    (scan topic handlers best = best ∨
      ∃ e ∈ handlers, e.1 <+: topic ∧ best.2 < e.1.length ∧
        scan topic handlers best = (some e.2, e.1.length)) := by
  induction handlers generalizing best with
  | nil => exact ⟨fun _ h ↦ absurd h List.not_mem_nil, Nat.le_refl _, .inl rfl⟩
  | cons e handlers ih =>
    rw [scan_cons]
    split
    · next h =>
      obtain ⟨hall, hle, hres⟩ := ih (some e.2, e.1.length)
      have hpre : e.1 <+: topic := List.isPrefixOf_iff_prefix.mp h.1
      refine ⟨?_, Nat.le_trans (Nat.le_of_lt h.2) hle, .inr ?_⟩
      · intro e' he' hp
        obtain rfl | he' := List.mem_cons.mp he'
        · exact hle
        · exact hall e' he' hp
      · obtain hres | ⟨e', he', hp, hlt, hres⟩ := hres
        · exact ⟨e, List.mem_cons_self, hpre, h.2, hres⟩
        · exact ⟨e', List.mem_cons_of_mem e he', hp, Nat.lt_trans h.2 hlt, hres⟩
    · next h =>
      obtain ⟨hall, hle, hres⟩ := ih best
      refine ⟨?_, hle, ?_⟩
      · intro e' he' hp
        obtain rfl | he' := List.mem_cons.mp he'
        · have hshort : ¬ e'.1.length > best.2 :=
            fun hgt ↦ h ⟨List.isPrefixOf_iff_prefix.mpr hp, hgt⟩
          exact Nat.le_trans (Nat.le_of_not_lt hshort) hle
        · exact hall e' he' hp
      · obtain hres | ⟨e', he', hp, hlt, hres⟩ := hres
        · exact .inl hres
        · exact .inr ⟨e', List.mem_cons_of_mem e he', hp, hlt, hres⟩

/-- The lookup finds the handler of the longest beginning of the topic, unless that is the empty
key and the topic is not empty. -/
theorem getHandler_eq_some_iff (hk : handlers.keys.Nodup) {handler : EventHandler} :
    handlers.getHandler topic = some handler ↔
      ∃ key, handlers.IsLongestPrefix topic key handler ∧ (key = [] → topic = []) := by
  unfold getHandler
  cases hl : handlers.lookup topic with
  | some own =>
    have hmem := (lookup_eq_some_iff hk).mp hl
    have hlongest : handlers.IsLongestPrefix topic topic own :=
      ⟨hmem, List.prefix_rfl, fun k _ hp ↦ hp.length_le⟩
    constructor
    · intro h
      cases h
      exact ⟨topic, hlongest, id⟩
    · rintro ⟨key, hkey, -⟩
      rw [(hlongest.unique hk hkey).2]
  | none =>
    change (scan topic handlers (none, 0)).1 = _ ↔ _
    obtain ⟨hall, -, hres⟩ := scan_spec topic handlers (none, 0)
    have hlen : ∀ key handler, handlers.IsLongestPrefix topic key handler → key ≠ topic := by
      rintro key handler ⟨hm, -⟩ rfl
      rw [(lookup_eq_some_iff hk).mpr hm] at hl
      cases hl
    obtain hres | ⟨e, he, hp, hlt, hres⟩ := hres
    · -- nothing was taken, so every beginning of the topic is empty
      rw [hres] at hall ⊢
      constructor
      · intro h
        cases h
      · rintro ⟨key, hlongest, hempty⟩
        have hz : key = [] := List.eq_nil_of_length_eq_zero
          (Nat.le_zero.mp (hall _ hlongest.1 hlongest.2.1))
        exact absurd (hz.trans (hempty hz).symm) (hlen key handler hlongest)
    · rw [hres] at hall ⊢
      have hbest : handlers.IsLongestPrefix topic e.1 e.2 := by
        refine ⟨he, hp, fun k hmem hpk ↦ ?_⟩
        obtain ⟨h, hm⟩ := mem_keys.mp hmem
        exact hall (k, h) hm hpk
      constructor
      · intro h
        cases h
        refine ⟨e.1, hbest, fun hnil ↦ ?_⟩
        rw [hnil] at hlt
        exact absurd hlt (Nat.lt_irrefl 0)
      · rintro ⟨key, hkey, -⟩
        rw [(hbest.unique hk hkey).2]

/-- The order of the entries does not matter. -/
theorem getHandler_perm {order : EventHandlerRegistry} (hk : handlers.keys.Nodup)
    (hp : order.Perm handlers) : order.getHandler topic = handlers.getHandler topic := by
  have hko : order.keys.Nodup := (hp.map Prod.fst).nodup_iff.mpr hk
  have hkeys : ∀ {k}, k ∈ order.keys ↔ k ∈ handlers.keys := (hp.map Prod.fst).mem_iff
  apply Option.ext
  intro handler
  rw [getHandler_eq_some_iff hko, getHandler_eq_some_iff hk]
  simp only [IsLongestPrefix, hp.mem_iff, hkeys]

/-- Some key that is a beginning of the topic is the longest. -/
private theorem exists_longest {key : Bytes} (hmem : key ∈ handlers.keys) (hp : key <+: topic) :
    ∃ longest handler, handlers.IsLongestPrefix topic longest handler := by
  obtain ⟨hall, hle, hres⟩ := scan_spec topic handlers (none, 0)
  obtain hres | ⟨e, he, hpe, -, hres⟩ := hres
  · obtain ⟨handler, hm⟩ := mem_keys.mp hmem
    refine ⟨key, handler, hm, hp, fun k hk hpk ↦ ?_⟩
    obtain ⟨h, hm'⟩ := mem_keys.mp hk
    have hz : k.length ≤ 0 := by simpa only [hres] using hall (k, h) hm' hpk
    omega
  · refine ⟨e.1, e.2, he, hpe, fun k hk hpk ↦ ?_⟩
    obtain ⟨h, hm'⟩ := mem_keys.mp hk
    simpa only [hres] using hall (k, h) hm' hpk

/-- The lookup is the longest-prefix lookup exactly when the topic is empty, the empty key is
not registered, or another key is a beginning of the topic. -/
theorem findsLongestPrefix_iff (hk : handlers.keys.Nodup) :
    handlers.FindsLongestPrefix topic ↔
      topic = [] ∨ [] ∉ handlers.keys ∨ ∃ key ∈ handlers.keys, key ≠ [] ∧ key <+: topic := by
  constructor
  · intro h
    by_contra hno
    rw [not_or, not_or] at hno
    obtain ⟨htopic, hreg, hnone⟩ := hno
    have hmiss : handlers.getHandler topic = none := by
      cases hg : handlers.getHandler topic with
      | none => rfl
      | some handler =>
        obtain ⟨key, hlongest, hempty⟩ := (getHandler_eq_some_iff hk).mp hg
        refine absurd ⟨key, mem_keys.mpr ⟨handler, hlongest.1⟩, ?_, hlongest.2.1⟩ hnone
        exact fun hnil ↦ htopic (hempty hnil)
    obtain ⟨-, hiff, -⟩ := h handlers (List.Perm.refl handlers)
    exact hiff.mp hmiss [] (not_not.mp hreg) List.nil_prefix
  · intro h order hperm
    rw [getHandler_perm hk hperm]
    -- a longest key that is empty leaves only the empty topic
    have hempty : ∀ key handler, handlers.IsLongestPrefix topic key handler →
        key = [] → topic = [] := by
      rintro key handler ⟨hm, -, hmax⟩ rfl
      obtain h | h | ⟨k, hkm, hne, hp⟩ := h
      · exact h
      · exact absurd (mem_keys.mpr ⟨handler, hm⟩) h
      · exact absurd (List.eq_nil_of_length_eq_zero (Nat.le_zero.mp (hmax k hkm hp))) hne
    refine ⟨fun key handler hl ↦ ?_, ⟨fun hn key hm hp ↦ ?_, fun hn ↦ ?_⟩, rfl⟩
    · exact (getHandler_eq_some_iff hk).mpr ⟨key, hl, hempty key handler hl⟩
    · obtain ⟨longest, handler, hl⟩ := exists_longest hm hp
      rw [(getHandler_eq_some_iff hk).mpr ⟨longest, hl, hempty longest handler hl⟩] at hn
      cases hn
    · cases hg : handlers.getHandler topic with
      | none => rfl
      | some handler =>
        obtain ⟨key, hl, -⟩ := (getHandler_eq_some_iff hk).mp hg
        exact absurd hl.2.1 (hn key (mem_keys.mpr ⟨handler, hl.1⟩))

/-- Nested keys, and no empty one. -/
theorem findsLongestPrefix_nested :
    FindsLongestPrefix [([0x61], defaultEventHandler), ([0x61, 0x2F], auditEventHandler)]
      [0x61, 0x2F, 0x62] :=
  (findsLongestPrefix_iff (by decide)).mpr (.inr (.inl (by decide)))

/-- The empty key is a beginning of every topic, but no topic other than the empty one gets its
handler. -/
theorem not_findsLongestPrefix_empty_key :
    ¬ FindsLongestPrefix [([], auditEventHandler)] [0x61] := by
  intro h
  obtain ⟨hlongest, -⟩ := h _ (List.Perm.refl _)
  have hmiss := hlongest [] auditEventHandler
    ⟨List.mem_singleton.mpr rfl, List.nil_prefix, by decide⟩
  cases hmiss

/-- Registering a handler keeps the keys distinct. -/
theorem nodup_keys_registerHandler (hk : handlers.keys.Nodup) (key : Bytes)
    (handler : EventHandler) : (handlers.registerHandler key handler).keys.Nodup := by
  unfold registerHandler
  split
  · change (List.map Prod.fst (List.map _ handlers)).Nodup
    rw [List.map_map]
    exact hk
  · next h =>
    refine List.nodup_cons.mpr ⟨fun hmem ↦ h ?_, hk⟩
    obtain ⟨old, hm⟩ := mem_keys.mp hmem
    rw [(lookup_eq_some_iff hk).mpr hm]
    rfl

end EventHandlerRegistry
end EventStreamCore.Processor
