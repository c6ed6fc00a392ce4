import Mathlib.Data.Set.Card
import EventStreamCore.Queues.Dedup

/-!
# The deduplication table as a map

What `LockFreeDeduplicator` is for: a finite map from ids to insertion times from which a
cleanup removes what is older than the window. Every sequence of calls made one after another,
with times in any order, has the answers of the map.
-/

namespace EventStreamCore.Queues

/-- The ids seen, each with the time of its insertion. -/
abbrev SeenMap := UInt32 → Option UInt64

namespace SeenMap

/-- Is an insertion time within the window at `nowMs`? -/
def Live (nowMs timestampMs : UInt64) : Prop :=
  nowMs ≤ timestampMs ∨ nowMs.toNat - timestampMs.toNat ≤ idempotentWindowMs.toNat

instance (nowMs timestampMs : UInt64) : Decidable (Live nowMs timestampMs) :=
  inferInstanceAs (Decidable (_ ∨ _))

/-- Add an absent id; a present one changes nothing. -/
def insert (m : SeenMap) (eventId : UInt32) (nowMs : UInt64) : SeenMap × Bool :=
  if (m eventId).isSome then (m, false) else (Function.update m eventId (some nowMs), true)

/-- Keep what is within the window. -/
def cleanup (m : SeenMap) (nowMs : UInt64) : SeenMap :=
  fun eventId ↦ (m eventId).filter fun timestampMs ↦ Live nowMs timestampMs

/-- The number of ids in the map. -/
noncomputable def size (m : SeenMap) : Nat := {eventId | (m eventId).isSome}.ncard

end SeenMap

/-- An entry expires exactly when its time leaves the window. -/
theorem Entry.expired_iff (nowMs : UInt64) (entry : Entry) :
    entry.expired nowMs = true ↔ ¬SeenMap.Live nowMs entry.timestampMs := by
  have hwindow : idempotentWindowMs.toNat = 3600000 := rfl
  unfold Entry.expired SeenMap.Live
  by_cases hle : entry.timestampMs ≤ nowMs
  · have hsub := UInt64.toNat_sub_of_le nowMs entry.timestampMs hle
    simp only [ge_iff_le, hle, if_true, gt_iff_lt, decide_eq_true_eq, UInt64.lt_iff_toNat_lt,
      UInt64.le_iff_toNat_le] at hsub ⊢
    rw [UInt64.le_iff_toNat_le] at hle
    omega
  · have hlt : nowMs.toNat < entry.timestampMs.toNat := by
      rw [UInt64.le_iff_toNat_le] at hle
      omega
    simp only [ge_iff_le, hle, if_false, gt_iff_lt, decide_eq_true_eq, UInt64.lt_iff_toNat_lt,
      UInt64.le_iff_toNat_le]
    constructor
    · intro h
      cases Nat.not_lt_zero _ h
    · intro h
      exact absurd (.inl (Nat.le_of_lt hlt)) h

namespace LockFreeDeduplicator

variable {n : Nat}

/-- A cleanup filters each chain. -/
theorem cleanup_buckets (d : LockFreeDeduplicator n) (nowMs : UInt64) (i : Fin n) :
    (d.cleanup nowMs).1.buckets i =
      (d.buckets i).filter fun entry ↦ SeenMap.Live nowMs entry.timestampMs := by
  change (cleanupBucketCount nowMs (d.buckets i)).1 = _
  rw [cleanupBucketCount_eq_filter]
  apply List.filter_congr
  intro entry _
  rw [Bool.eq_iff_iff, Bool.not_eq_true', decide_eq_true_eq, ← Bool.not_eq_true,
    entry.expired_iff, not_not]

/-- At `UINT64_MAX` every time up to `2^64 - 2` less the window has left the window. -/
theorem cleanupAll_buckets {d : LockFreeDeduplicator n}
    (h : ∀ i, ∀ entry ∈ d.buckets i,
      entry.timestampMs.toNat ≤ 2 ^ 64 - 2 - idempotentWindowMs.toNat) (i : Fin n) :
    d.cleanupAll.1.buckets i = [] := by
  have hwindow : idempotentWindowMs.toNat = 3600000 := rfl
  have hnow : (UInt64.ofNat (2 ^ 64 - 1)).toNat = 2 ^ 64 - 1 := rfl
  rw [cleanupAll, cleanup_buckets, List.filter_eq_nil_iff]
  intro entry hentry
  have hle := h i entry hentry
  rw [decide_eq_true_eq, SeenMap.Live, UInt64.le_iff_toNat_le, hnow]
  omega

variable [NeZero n]

/-- The map a table stands for. -/
def toMap (d : LockFreeDeduplicator n) : SeenMap := fun eventId ↦
  ((d.buckets (bucketIdx eventId)).find? fun entry ↦ entry.id == eventId).map Entry.timestampMs

/-- Every entry is in its bucket, and no chain holds an id twice. -/
structure Wf (d : LockFreeDeduplicator n) : Prop where
  bucket : ∀ i, ∀ entry ∈ d.buckets i, bucketIdx entry.id = i
  nodup : ∀ i, ((d.buckets i).map Entry.id).Nodup

/-- A new table is well formed. -/
theorem wf_initial : (initial : LockFreeDeduplicator n).Wf :=
  ⟨fun _ _ h ↦ (by cases h), fun _ ↦ List.nodup_nil⟩

/-- `is_duplicate` asks whether the id is in the map. -/
theorem isDuplicate_eq (d : LockFreeDeduplicator n) (eventId : UInt32) :
    d.isDuplicate eventId = (d.toMap eventId).isSome := by
  rw [Bool.eq_iff_iff, isDuplicate, toMap, Option.isSome_map, List.any_eq_true, List.find?_isSome]

/-- `insert` inserts into the map. -/
theorem toMap_insert (d : LockFreeDeduplicator n) (eventId : UInt32) (nowMs : UInt64) :
    ((d.insert eventId nowMs).1.toMap, (d.insert eventId nowMs).2) =
      d.toMap.insert eventId nowMs := by
  unfold SeenMap.insert
  rw [← isDuplicate_eq]
  rw [insert_eq]
  by_cases hknown : d.isDuplicate eventId
  · rw [if_pos hknown, if_pos hknown]
  · rw [if_neg hknown, if_neg hknown]
    refine Prod.ext ?_ rfl
    funext other
    dsimp only
    by_cases he : other = eventId
    · subst he
      simp [toMap]
    · rw [Function.update_of_ne he]
      unfold toMap
      by_cases hb : bucketIdx (n := n) other = bucketIdx eventId
      · simp only [hb, Function.update_self]
        rw [List.find?_cons_of_neg (by simpa using Ne.symm he)]
      · simp only [Function.update_of_ne hb]

/-- `insert` keeps a table well formed. -/
theorem Wf.insert {d : LockFreeDeduplicator n} (h : d.Wf) (eventId : UInt32) (nowMs : UInt64) :
    (d.insert eventId nowMs).1.Wf := by
  rw [insert_eq]
  split
  · exact h
  · next hknown =>
    have hnew : eventId ∉ (d.buckets (bucketIdx eventId)).map Entry.id := by
      intro hmem
      obtain ⟨entry, hentry, hid⟩ := List.mem_map.mp hmem
      exact hknown (List.any_eq_true.mpr ⟨entry, hentry, beq_iff_eq.mpr hid⟩)
    constructor
    · intro i entry hentry
      by_cases hi : i = bucketIdx eventId
      · subst hi
        simp only [Function.update_self, List.mem_cons] at hentry
        obtain rfl | hold := hentry
        · rfl
        · exact h.bucket _ entry hold
      · simp only [Function.update_of_ne hi] at hentry
        exact h.bucket i entry hentry
    · intro i
      by_cases hi : i = bucketIdx eventId
      · subst hi
        simp only [Function.update_self, List.map_cons]
        exact List.nodup_cons.mpr ⟨hnew, h.nodup _⟩
      · simp only [Function.update_of_ne hi]
        exact h.nodup i

/-- In a chain without repetitions, filtering by time filters what is found under an id. -/
private theorem find?_filter_live (nowMs : UInt64) (eventId : UInt32) (chain : List Entry)
    (h : (chain.map Entry.id).Nodup) :
    ((chain.filter fun entry ↦ SeenMap.Live nowMs entry.timestampMs).find?
      fun entry ↦ entry.id == eventId).map Entry.timestampMs =
    ((chain.find? fun entry ↦ entry.id == eventId).map Entry.timestampMs).filter
      fun timestampMs ↦ SeenMap.Live nowMs timestampMs := by
  induction chain with
  | nil => rfl
  | cons head tail ih =>
    obtain ⟨hnew, htail⟩ := List.nodup_cons.mp (List.map_cons ▸ h)
    have hrest := ih htail
    by_cases hid : head.id = eventId
    · have hnone : tail.find? (fun entry ↦ entry.id == eventId) = none := by
        rw [List.find?_eq_none]
        intro entry hentry hfound
        exact hnew (List.mem_map.mpr ⟨entry, hentry, (beq_iff_eq.mp hfound).trans hid.symm⟩)
      rw [hnone] at hrest
      by_cases hlive : SeenMap.Live nowMs head.timestampMs
      · simp only [List.filter_cons, hlive, decide_true, if_true, List.find?_cons, hid,
          beq_self_eq_true, Option.map_some, Option.filter_some]
      · simp only [List.filter_cons, hlive, decide_false, Bool.false_eq_true, if_false,
          List.find?_cons, hid, beq_self_eq_true, Option.map_some, Option.filter_some, hrest]
        rfl
    · have hne : (head.id == eventId) = false := beq_false_of_ne hid
      by_cases hlive : SeenMap.Live nowMs head.timestampMs
      · simp only [List.filter_cons, hlive, decide_true, if_true, List.find?_cons, hne, hrest]
      · simp only [List.filter_cons, hlive, decide_false, Bool.false_eq_true, if_false,
          List.find?_cons, hne, hrest]

/-- `cleanup` cleans the map up. -/
theorem toMap_cleanup {d : LockFreeDeduplicator n} (h : d.Wf) (nowMs : UInt64) :
    (d.cleanup nowMs).1.toMap = d.toMap.cleanup nowMs := by
  funext eventId
  rw [toMap, cleanup_buckets, find?_filter_live nowMs eventId _ (h.nodup _)]
  rfl

/-- `cleanup` keeps a table well formed. -/
theorem Wf.cleanup {d : LockFreeDeduplicator n} (h : d.Wf) (nowMs : UInt64) :
    (d.cleanup nowMs).1.Wf := by
  constructor
  · intro i entry hentry
    rw [cleanup_buckets] at hentry
    exact h.bucket i entry (List.mem_filter.mp hentry).1
  · intro i
    rw [cleanup_buckets]
    exact (List.filter_sublist.map Entry.id).nodup (h.nodup i)

/-- `approx_size` is the number of ids in the map. -/
theorem approxSize_eq {d : LockFreeDeduplicator n} (h : d.Wf) : d.approxSize = d.toMap.size := by
  let ids := (List.finRange n).flatMap fun i ↦ (d.buckets i).map Entry.id
  have hnodup : ids.Nodup := by
    rw [List.nodup_flatMap]
    refine ⟨fun i _ ↦ h.nodup i, ?_⟩
    apply (List.nodup_finRange n).imp
    intro i j hij eventId hi hj
    obtain ⟨e, he, rfl⟩ := List.mem_map.mp hi
    obtain ⟨e', he', hid⟩ := List.mem_map.mp hj
    apply hij
    rw [← h.bucket i e he, ← h.bucket j e' he', hid]
  have hset : {eventId | (d.toMap eventId).isSome} = {eventId | eventId ∈ ids} := by
    ext eventId
    rw [Set.mem_ofPred_eq, Set.mem_ofPred_eq, ← isDuplicate_eq]
    constructor
    · intro hd
      obtain ⟨e, he, hid⟩ := List.any_eq_true.mp hd
      exact List.mem_flatMap.mpr ⟨_, List.mem_finRange _,
        List.mem_map.mpr ⟨e, he, beq_iff_eq.mp hid⟩⟩
    · intro hmem
      obtain ⟨i, -, hi⟩ := List.mem_flatMap.mp hmem
      obtain ⟨e, he, rfl⟩ := List.mem_map.mp hi
      refine List.any_eq_true.mpr ⟨e, ?_, beq_self_eq_true _⟩
      rw [h.bucket i e he]
      exact he
  have hcard : {eventId | eventId ∈ ids}.ncard = ids.length := by
    rw [← List.coe_toFinset, Set.ncard_coe_finset, List.toFinset_card_of_nodup hnodup]
  rw [SeenMap.size, hset, hcard, approxSize, List.length_flatMap]
  simp only [List.length_map]

end LockFreeDeduplicator

/-- A call of the table. -/
inductive DedupCall where
  | insert (eventId : UInt32) (nowMs : UInt64)
  | isDuplicate (eventId : UInt32) (nowMs : UInt64)
  | cleanup (nowMs : UInt64)
  | approxSize
deriving DecidableEq, Repr

/-- What a call answers. -/
inductive DedupAnswer where
  | inserted (new : Bool)
  | duplicate (known : Bool)
  | cleaned
  | size (count : Nat)
deriving DecidableEq, Repr

/-- Make a list of calls one after another and collect the answers. -/
def callAll {σ : Type} (call : σ → DedupCall → σ × DedupAnswer) (s : σ) :
    List DedupCall → σ × List DedupAnswer
  | [] => (s, [])
  | c :: cs => ((callAll call (call s c).1 cs).1, (call s c).2 :: (callAll call (call s c).1 cs).2)

/-- A call on the table. -/
def LockFreeDeduplicator.call {n : Nat} [NeZero n] (d : LockFreeDeduplicator n) :
    DedupCall → LockFreeDeduplicator n × DedupAnswer
  | .insert eventId nowMs => ((d.insert eventId nowMs).1, .inserted (d.insert eventId nowMs).2)
  | .isDuplicate eventId _ => (d, .duplicate (d.isDuplicate eventId))
  | .cleanup nowMs => ((d.cleanup nowMs).1, .cleaned)
  | .approxSize => (d, .size d.approxSize)

/-- A call on the map. -/
noncomputable def SeenMap.call (m : SeenMap) : DedupCall → SeenMap × DedupAnswer
  | .insert eventId nowMs => ((m.insert eventId nowMs).1, .inserted (m.insert eventId nowMs).2)
  | .isDuplicate eventId _ => (m, .duplicate (m eventId).isSome)
  | .cleanup nowMs => (m.cleanup nowMs, .cleaned)
  | .approxSize => (m, .size m.size)

/-- One call on a well-formed table is one call on its map. -/
theorem LockFreeDeduplicator.Wf.call {n : Nat} [NeZero n] {d : LockFreeDeduplicator n} (h : d.Wf)
    (c : DedupCall) :
    (d.call c).1.Wf ∧ ((d.call c).1.toMap, (d.call c).2) = SeenMap.call d.toMap c := by
  cases c with
  | insert eventId nowMs =>
    refine ⟨h.insert eventId nowMs, ?_⟩
    have hmap := d.toMap_insert eventId nowMs
    rw [SeenMap.call, ← hmap]
    rfl
  | isDuplicate eventId nowMs =>
    refine ⟨h, ?_⟩
    rw [SeenMap.call, ← isDuplicate_eq]
    rfl
  | cleanup nowMs =>
    refine ⟨h.cleanup nowMs, ?_⟩
    rw [SeenMap.call, ← toMap_cleanup h]
    rfl
  | approxSize =>
    refine ⟨h, ?_⟩
    rw [SeenMap.call, ← approxSize_eq h]
    rfl

private theorem callAll_refines {n : Nat} [NeZero n] {d : LockFreeDeduplicator n} (h : d.Wf)
    (cs : List DedupCall) :
    (callAll LockFreeDeduplicator.call d cs).1.Wf ∧
    (callAll LockFreeDeduplicator.call d cs).1.toMap = (callAll SeenMap.call d.toMap cs).1 ∧
    (callAll LockFreeDeduplicator.call d cs).2 = (callAll SeenMap.call d.toMap cs).2 := by
  induction cs generalizing d with
  | nil => exact ⟨h, rfl, rfl⟩
  | cons c cs ih =>
    obtain ⟨hwf, hstep⟩ := h.call c
    obtain ⟨hrest, hmap, hanswers⟩ := ih hwf
    rw [Prod.eq_iff_fst_eq_snd_eq] at hstep
    obtain ⟨hnext, hanswer⟩ := hstep
    dsimp only at hnext hanswer
    refine ⟨hrest, ?_, ?_⟩
    · rw [callAll, callAll, ← hnext]
      exact hmap
    · rw [callAll, callAll, ← hnext, ← hanswer, hanswers]

/-- The table refines a finite map from id to insertion time. For every bucket count and every
sequence of calls on a new table, with times in any order, the answers are those of the map and
the table stands for the map; an insert of a known id changes nothing, a cleanup keeps exactly
the entries within the window, in chain order, and `cleanup_all` empties every table whose times
are at most `2^64 - 2` less the window. -/
theorem table_refines_map (n : Nat) [NeZero n] (cs : List DedupCall) :
    let d := (callAll LockFreeDeduplicator.call (.initial : LockFreeDeduplicator n) cs).1
    (callAll LockFreeDeduplicator.call (.initial : LockFreeDeduplicator n) cs).2 =
      (callAll SeenMap.call (fun _ ↦ none) cs).2 ∧
    d.toMap = (callAll SeenMap.call (fun _ ↦ none) cs).1 ∧
    (∀ eventId nowMs, d.isDuplicate eventId = true → (d.insert eventId nowMs).1 = d) ∧
    (∀ nowMs i, (d.cleanup nowMs).1.buckets i =
      (d.buckets i).filter fun entry ↦ SeenMap.Live nowMs entry.timestampMs) ∧
    ((∀ i, ∀ entry ∈ d.buckets i,
        entry.timestampMs.toNat ≤ 2 ^ 64 - 2 - idempotentWindowMs.toNat) →
      ∀ i, d.cleanupAll.1.buckets i = []) := by
  intro d
  obtain ⟨-, hmap, hanswers⟩ := callAll_refines (LockFreeDeduplicator.wf_initial (n := n)) cs
  refine ⟨hanswers, hmap, ?_, ?_, ?_⟩
  · intro eventId nowMs hknown
    rw [LockFreeDeduplicator.insert_eq, if_pos hknown]
  · exact d.cleanup_buckets
  · exact LockFreeDeduplicator.cleanupAll_buckets

/-- Two ids in one bucket, of which a cleanup removes the older one. -/
theorem table_refines_map_one_bucket :
    (callAll LockFreeDeduplicator.call (.initial : LockFreeDeduplicator 1)
      [.insert 5 0, .insert 9 3600000, .insert 5 7, .cleanup 3600001, .isDuplicate 5 0,
        .isDuplicate 9 0, .approxSize]).2 =
      [.inserted true, .inserted true, .inserted false, .cleaned, .duplicate false,
        .duplicate true, .size 1] ∧
    (callAll SeenMap.call (fun _ ↦ none)
      [.insert 5 0, .insert 9 3600000, .insert 5 7, .cleanup 3600001, .isDuplicate 5 0,
        .isDuplicate 9 0, .approxSize]).2 =
      [.inserted true, .inserted true, .inserted false, .cleaned, .duplicate false,
        .duplicate true, .size 1] := by
  have htable : (callAll LockFreeDeduplicator.call (.initial : LockFreeDeduplicator 1)
      [.insert 5 0, .insert 9 3600000, .insert 5 7, .cleanup 3600001, .isDuplicate 5 0,
        .isDuplicate 9 0, .approxSize]).2 =
      [.inserted true, .inserted true, .inserted false, .cleaned, .duplicate false,
        .duplicate true, .size 1] := by
    decide +kernel
  exact ⟨htable, (table_refines_map 1 _).1.symm.trans htable⟩

end EventStreamCore.Queues
