import EventStreamCore.Queues.DedupAddresses

/-!
# A head at a reused address

The compare-exchange of `insert`, `dedup.cpp:38–48`, compares the address of the head it loaded.
While another insert may still read an entry its memory is not given away, but between the walk
and the compare-exchange nothing is read: a cleanup may free the head, another insert of the same
id may get its address and put the id into the table, and the compare-exchange succeeds on a
chain that was not walked. While that does not happen the chains stay correct.
-/

namespace EventStreamCore.Queues.DedupThreads
open EventStreamCore.Lib

universe u

variable {τ : Type u} {n : Nat}

section Steps

variable [NeZero n] {address : Nat → Nat} {entry : Nat → Entry} {c c' : Memory τ n}
  {s : State τ n} {chain : Fin n → List Nat}

/-- An insert that loads the head of its chain. -/
theorem Agree.backed_load (h : Agree address c s) (hinv : s.Inv entry chain) {k : Nat}
    (hk : c.Live address k) (retryCount : Nat) (i : Fin n) :
    Backed (c.Current address) (c.Live address) s.next ((c.heads i).map c.cell)
      (.walkTo k retryCount (s.heads i) (s.heads i)) := by
  refine ⟨fun p hp ↦ ?_, fun j hj ↦ ?_, fun curr hcurr ↦ ?_⟩
  · rw [← InsertPc.loads_walkTo hp, h.heads i]
    cases hhead : s.heads i with
    | none => rfl
    | some a => exact congrArg some (h.live_head hinv hhead).1.2
  · cases InsertPc.owns_walkTo.mp hj
    exact hk
  · refine ⟨chain i, InsertPc.standsAt_walkTo hcurr ▸ hinv.linked i, fun x hx ↦ ?_⟩
    exact (h.live_of_mem hinv hx).1

/-- An insert that steps to the next entry. -/
theorem Backed.advance {current live : Nat → Prop} {next : Nat → Option Nat}
    {loaded head : Option Nat} {k retryCount curr : Nat}
    (h : Backed current live next loaded (.walk k retryCount head curr)) :
    Backed current live next loaded (.walkTo k retryCount head (next curr)) := by
  refine ⟨fun p hp ↦ h.loaded p (InsertPc.loads_walkTo hp), fun j hj ↦ ?_, fun a ha ↦ ?_⟩
  · exact h.owned j (InsertPc.owns_walkTo.mp hj)
  · obtain ⟨w, hw, hcurrent⟩ := h.ahead curr rfl
    obtain ⟨l, rfl, hl⟩ := hw.exists_cons
    rw [InsertPc.standsAt_walkTo ha] at hl
    exact ⟨l, hl, fun x hx ↦ hcurrent x (List.mem_cons_of_mem _ hx)⟩

/-- Where an insert stands there is the entry. -/
theorem Backed.current_curr {current live : Nat → Prop} {next : Nat → Option Nat}
    {loaded head : Option Nat} {k retryCount curr : Nat}
    (h : Backed current live next loaded (.walk k retryCount head curr)) : current curr := by
  obtain ⟨w, hw, hcurrent⟩ := h.ahead curr rfl
  exact hcurrent curr hw.head_mem

/-- A head compared by address is compared by entry when no new entry is at the address. -/
theorem Agree.head_eq (h : Agree address c s) (hinv : s.Inv entry chain) {i : Fin n}
    {head loaded : Option Nat} (hloaded : loaded = head)
    (hreused : c.heads i = head.map address → (head.map address).map c.cell = loaded) :
    c.heads i = head.map address ↔ s.heads i = head := by
  rw [h.heads i]
  constructor
  · intro heq
    rw [h.heads i] at hreused
    rw [← hloaded, ← hreused heq, ← heq]
    cases hhead : s.heads i with
    | none => rfl
    | some a => exact congrArg some (h.live_head hinv hhead).1.2.symm
  · exact congrArg _

/-- The compare-exchange of the cleanup finds its own entry at the address it loaded. -/
theorem Agree.cleaner_head (h : Agree address c s) (hinv : s.Inv entry chain) {i : Fin n}
    {head : Nat} (hhead : head ∈ chain i) :
    c.heads i = some (address head) ↔ s.heads i = some head := by
  rw [h.heads i]
  constructor
  · intro heq
    obtain ⟨k, hk, haddress⟩ := Option.map_eq_some_iff.mp heq
    rw [hk, (h.live_head hinv hk).1.inj (h.live_of_mem hinv hhead).1 haddress]
  · intro heq
    rw [heq, Option.map_some]

/-- The first entry of a chain, where the cleanup goes on. -/
theorem Agree.phase1 (h : Agree address c s) (hinv : s.Inv entry chain) {nowMs : UInt64}
    {i : Fin n} {headRetries : Nat} :
    CleanerPc.phase1 (c.read entry) nowMs i headRetries (c.heads i) =
      (CleanerPc.phase1 entry nowMs i headRetries (s.heads i)).map address := by
  rw [h.heads i]
  exact (CleanerPc.map_phase1 (fun k hk ↦ (h.live_head hinv hk).1) nowMs i headRetries).symm

/-- Every access of `cleanup` is the access of the table. -/
theorem Agree.stepCleaner (h : Agree address c s) (hinv : s.Inv entry chain)
    (hs : c.stepCleaner entry = some c') :
    ∃ s', s.stepCleaner entry = some s' ∧ Agree address c' s' := by
  have hat := hinv.cleaner
  unfold Memory.stepCleaner at hs
  unfold State.stepCleaner
  rw [h.cleaner] at hs
  cases hpc : s.cleaner with
  | idle =>
    rw [hpc] at hs
    cases hs
  | loadHead nowMs i =>
    rw [hpc] at hs
    cases hs
    exact ⟨_, rfl, h.setCleaner (h.phase1 hinv)⟩
  | readHeadNext nowMs i head headRetries =>
    rw [hpc] at hs hat
    cases hs
    refine ⟨_, rfl, h.setCleaner ?_⟩
    rw [h.next head (h.live_of_mem hinv hat.1).1]
    rfl
  | casHead nowMs i head next headRetries =>
    rw [hpc] at hs hat
    obtain ⟨hmem, -, hnext⟩ := hat
    have hlive := h.live_of_mem hinv hmem
    simp only [CleanerPc.map, h.cleaner_head hinv hmem] at hs
    by_cases hhead : s.heads i = some head
    · rw [if_pos hhead] at hs
      cases hs
      refine ⟨_, if_pos hhead, h.remove hinv hlive.1 (hinv.published i head hmem) (fun j ↦ ?_)
        h.next ?_ fun p w hw ↦ ⟨w, hw, List.Subset.refl w⟩⟩
      · by_cases hj : j = i
        · rw [hj, Function.update_self, Function.update_self]
        · rw [Function.update_of_ne hj, Function.update_of_ne hj]
          exact h.heads j
      · refine (CleanerPc.map_phase1 (fun k hk ↦ ?_) nowMs i 0).symm
        have hnextMem := (hinv.linked i).mem_next hmem (hnext.trans hk)
        exact (h.live_of_mem hinv hnextMem).1
    · rw [if_neg hhead] at hs
      cases hs
      exact ⟨_, if_neg hhead, h.setCleaner (h.phase1 hinv)⟩
  | readFirst nowMs i prev =>
    rw [hpc] at hs hat
    cases hs
    refine ⟨_, rfl, h.setCleaner ?_⟩
    rw [h.next prev (h.live_of_mem hinv hat).1, CleanerPc.map_phase2]
  | readNext nowMs i prev curr =>
    rw [hpc] at hs hat
    have hcurr := (h.live_of_mem hinv ((hinv.linked i).mem_next hat.1 hat.2)).1
    simp only [CleanerPc.map, hcurr.read, h.next curr hcurr] at hs
    by_cases hexpired : (entry curr).expired nowMs
    · rw [if_pos hexpired] at hs
      cases hs
      exact ⟨_, if_pos hexpired, h.setCleaner rfl⟩
    · rw [if_neg hexpired] at hs
      cases hs
      refine ⟨_, if_neg hexpired, h.setCleaner ?_⟩
      rw [CleanerPc.map_phase2]
  | unlink nowMs i prev curr next =>
    rw [hpc] at hs hat
    obtain ⟨hprev, hcurr, -, rfl⟩ := hat
    have hmem := (hinv.linked i).mem_next hprev hcurr
    have hlive := h.live_of_mem hinv hprev
    cases hs
    refine ⟨_, rfl, h.remove hinv (h.live_of_mem hinv hmem).1 (hinv.published i curr hmem)
      h.heads (fun j hj ↦ ?_) ?_ fun p w hw ↦ ?_⟩
    · by_cases hjprev : j = prev
      · rw [hjprev, Function.update_self, Function.update_self]
      · have haddress : address j ≠ address prev := fun he ↦ hjprev (hj.inj hlive.1 he)
        rw [Function.update_of_ne hjprev, Function.update_of_ne haddress]
        exact h.next j hj
    · rw [CleanerPc.map_phase2]
    · obtain ⟨w', hw', hsub, -⟩ := hw.unlink hcurr
      exact ⟨w', hw', hsub.subset⟩

variable [DecidableEq τ]

/-- Every access of `insert` is the access of the table. -/
theorem Agree.stepInsert (h : Agree address c s) (hinv : s.Inv entry chain) {u : τ}
    (hreused : c.headReused entry (.inserter u) = false)
    (hs : c.stepInsert entry u = some c') :
    ∃ s', s.stepInsert entry u = some s' ∧ Agree address c' s' := by
  have hthread := h.inserters u
  have hbacked := h.backed u
  unfold Memory.stepInsert at hs
  unfold Memory.headReused at hreused
  unfold State.stepInsert
  rw [hthread] at hs
  simp only [hthread] at hreused
  cases hu : s.inserters u with
  | idle =>
    rw [hu] at hs
    cases hs
  | loadHead k retryCount =>
    rw [hu] at hs hbacked
    have hk := hbacked.owned k rfl
    simp only [InsertPc.map, hk.1.read, Option.some.injEq] at hs
    subst hs
    refine ⟨_, rfl, ?_⟩
    rw [h.heads, ← InsertPc.map_walkTo]
    apply h.move _ fun t ht ↦ Function.update_of_ne ht _ _
    rw [Function.update_self, ← h.heads]
    exact h.backed_load hinv hk retryCount _
  | walk k retryCount head curr =>
    rw [hu] at hs hbacked
    have hk := hbacked.owned k rfl
    have hcurr := hbacked.current_curr
    simp only [InsertPc.map, hk.1.read, hcurr.read] at hs
    by_cases hid : (entry curr).id = (entry k).id
    · rw [if_pos hid] at hs
      cases hs
      exact ⟨_, if_pos hid, h.refuse hinv (hu ▸ rfl)⟩
    · rw [if_neg hid, h.next curr hcurr, ← InsertPc.map_walkTo] at hs
      cases hs
      exact ⟨_, if_neg hid, h.move _ (fun _ _ ↦ rfl) hbacked.advance⟩
  | writeNext k retryCount head =>
    rw [hu] at hs
    cases hs
    exact ⟨_, rfl, h.writeNext hinv hu⟩
  | casHead k retryCount head =>
    rw [hu] at hs hbacked hreused
    have hk := hbacked.owned k rfl
    have hhead := h.head_eq hinv (hbacked.loaded head rfl)
      (i := LockFreeDeduplicator.bucketIdx (entry k).id) (fun heq ↦ by
        simpa [InsertPc.map, hk.1.read, heq] using hreused)
    simp only [InsertPc.map, hk.1.read] at hs
    by_cases hsame : s.heads (LockFreeDeduplicator.bucketIdx (entry k).id) = head
    · rw [if_pos (hhead.mpr hsame)] at hs
      cases hs
      exact ⟨_, if_pos hsame, h.publish (hu ▸ rfl) _⟩
    · rw [if_neg (mt hhead.mp hsame)] at hs
      by_cases hretry : retryCount + 1 < maxRetries
      · rw [if_pos hretry] at hs
        cases hs
        refine ⟨_, (if_neg hsame).trans (if_pos hretry), ?_⟩
        apply h.move (.loadHead k (retryCount + 1)) fun _ _ ↦ rfl
        exact ⟨fun _ ↦ False.elim, hbacked.owned, fun _ ↦ False.elim⟩
      · rw [if_neg hretry] at hs
        cases hs
        exact ⟨_, (if_neg hsame).trans (if_neg hretry), h.refuse hinv (hu ▸ rfl)⟩

/-- While no insert takes a new entry for the head it loaded, every step is one of the table. -/
theorem Agree.step (h : Agree address c s) (hinv : s.Inv entry chain) {l : Label τ}
    (hreclaims : c.Reclaims address l) (hreused : c.headReused entry l = false)
    (hs : c.step entry address l = some c') :
    ∃ s', s.step entry l = some s' ∧ Agree address c' s' := by
  cases l with
  | callInsert u =>
    simp only [Memory.step] at hs
    split at hs
    · next hidle =>
      cases hs
      have hpc := InsertPc.map_eq_idle ((h.inserters u).symm.trans hidle.1)
      exact ⟨_, if_pos hpc, h.callInsert hidle.2 hreclaims⟩
    · cases hs
  | inserter u => exact h.stepInsert hinv hreused hs
  | callCleanup nowMs =>
    simp only [Memory.step] at hs
    split at hs
    · next hidle =>
      cases hs
      have hpc := CleanerPc.map_eq_idle (h.cleaner.symm.trans hidle)
      exact ⟨_, if_pos hpc, h.setCleaner rfl⟩
    · cases hs
  | cleaner => exact h.stepCleaner hinv hs

end Steps

private theorem exceeds_window {e : Entry} {nowMs : UInt64} (h : e.expired nowMs) :
    e.timestampMs.toNat + idempotentWindowMs.toNat < nowMs.toNat := by
  have hlive := (e.expired_iff nowMs).mp h
  simp only [SeenMap.Live, UInt64.le_iff_toNat_le] at hlive
  omega

section Runs

variable {address : Nat → Nat} {entry : Nat → Entry}

/-- Empty memory holds an empty table. -/
theorem Agree.initial : Agree address (Memory.initial : Memory τ n) State.initial where
  calls := rfl
  history := rfl
  heads _ := rfl
  next _ _ := rfl
  live _ hk := by cases hk
  cleaner := rfl
  inserters _ := rfl
  backed _ := ⟨fun _ ↦ False.elim, fun _ ↦ False.elim, fun _ ↦ False.elim⟩

/-- Is an insert on its way along a chain? -/
def InsertPc.walks : InsertPc → Bool
  | .walk _ _ _ _ => true
  | _ => false

/-- A call of `insert` by one of two threads while neither is on its way along a chain. -/
def Memory.unread (s : Memory Bool n) : Label Bool → Bool
  | .callInsert _ => !(s.inserters false).walks && !(s.inserters true).walks
  | _ => true

/-- When no insert is on its way along a chain, no address may still be read. -/
theorem Memory.reclaims_of_unread {s : Memory Bool n} {l : Label Bool} (h : s.unread l = true) :
    s.Reclaims address l := by
  cases l with
  | callInsert u =>
    rintro ⟨t, node, retryCount, head, curr, ht, -⟩
    simp only [Memory.unread, Bool.and_eq_true, Bool.not_eq_true'] at h
    cases t with
    | false => simp [ht, InsertPc.walks] at h
    | true => simp [ht, InsertPc.walks] at h
  | inserter u => trivial
  | callCleanup nowMs => trivial
  | cleaner => trivial

variable [NeZero n]

/-- Memory that holds a table whose invariant holds is correct. -/
theorem Agree.correct {c : Memory τ n} {s : State τ n} {chain : Fin n → List Nat}
    (h : Agree address c s) (hinv : s.Inv entry chain) : c.Correct entry address := by
  have hlinked : ∀ i, Linked c.next (c.heads i) ((chain i).map address) := by
    intro i
    rw [h.heads i]
    exact (hinv.linked i).map fun k hk ↦ h.next k (h.live_of_mem hinv hk).1
  have hread : ∀ i, ∀ k ∈ chain i, c.read entry (address k) = entry k := fun i k hk ↦
    (h.live_of_mem hinv hk).1.read
  refine ⟨fun i ↦ ⟨_, hlinked i, fun a ha ↦ ?_, ?_⟩, fun k hk ↦ ?_, fun k nowMs hk ↦ ?_, ?_⟩
  · obtain ⟨k, hk, rfl⟩ := List.mem_map.mp ha
    rw [hread i k hk]
    exact congrArg Fin.val (hinv.bucket i k hk)
  · have hids : (chain i).map (fun k ↦ (c.read entry (address k)).id) =
        (chain i).map fun k ↦ (entry k).id :=
      List.map_congr_left fun k hk ↦ congrArg Entry.id (hread i k hk)
    rw [List.map_map]
    exact hids ▸ hinv.ids i
  · rw [h.history] at hk ⊢
    obtain hmem | hremoved := hinv.kept k hk
    · exact .inl ⟨_, hlinked _, List.mem_map_of_mem hmem, (h.live_of_mem hinv hmem).1.2⟩
    · exact .inr hremoved
  · rw [h.history] at hk
    exact exceeds_window (hinv.expired k nowMs hk)
  · rw [h.history]
    exact hinv.spaced

variable [DecidableEq τ]

/-- In every interleaving of inserts and one cleanup in which no compare-exchange of an insert
takes a new entry for the head it loaded, the chains are correct. -/
theorem chains_correct_unless_head_reused (entry : Nat → Entry) (address : Nat → Nat)
    (s : Memory τ n) (h : (dedupMemory τ n entry address).ReachableWith
      (fun s l ↦ s.Reclaims address l ∧ s.headReused entry l = false) s) :
    s.Correct entry address := by
  have hagree : ∃ t chain, Agree address s t ∧ t.Inv entry chain := by
    apply h.invariant (I := fun s ↦ ∃ t chain, Agree address s t ∧ State.Inv entry t chain)
    · exact ⟨_, _, .initial, .initial⟩
    · rintro c l c' ⟨t, chain, hagree, hinv⟩ ⟨hreclaims, hreused⟩ hs
      obtain ⟨t', hstep, hagree'⟩ := hagree.step hinv hreclaims hreused hs
      obtain ⟨chain', hinv'⟩ := hinv.step hstep
      exact ⟨t', chain', hagree', hinv'⟩
  obtain ⟨t, chain, hagree, hinv⟩ := hagree
  exact hagree.correct hinv

/-- Two threads insert one id, the second at the address of the first one's entry after a
cleanup has freed it. -/
theorem chains_correct_at_reused_address :
    let entry : Nat → Entry := fun k ↦ if k = 0 then ⟨7, 0⟩ else ⟨7, 3600001⟩
    let address : Nat → Nat := fun _ ↦ 0
    ∃ s : Memory Bool defaultBuckets, (dedupMemory Bool defaultBuckets entry address).ReachableWith
        (fun s l ↦ s.Reclaims address l ∧ s.headReused entry l = false) s ∧
      s.history = [.inserted 0, .removed 0 3600001, .inserted 1] ∧ s.Correct entry address := by
  intro entry address
  let m := dedupMemory Bool defaultBuckets entry address
  have hrun : (m.runWith (fun s l ↦ s.unread l = true ∧ s.headReused entry l = false) m.start
      (List.flatten [[.callInsert true], List.replicate 3 (.inserter true),
        [.callCleanup 3600001], List.replicate 10 .cleaner, [.callInsert false],
        List.replicate 3 (.inserter false)])).map Memory.history =
      some [.inserted 0, .removed 0 3600001, .inserted 1] := by
    decide +kernel
  obtain ⟨s, hrun, hs⟩ := Option.map_eq_some_iff.mp hrun
  have hreach : m.ReachableWith (fun s l ↦ s.Reclaims address l ∧ s.headReused entry l = false) s :=
    (Machine.ReachableWith.run .start hrun).mono fun _ _ h ↦
      ⟨Memory.reclaims_of_unread h.1, h.2⟩
  exact ⟨s, hreach, hs, chains_correct_unless_head_reused entry address s hreach⟩

/-- An insert of id 7 has walked its chain when the cleanup frees the expired entry it loaded as
the head. Another insert of id 7 gets the address and puts the id into the table, and then the
compare-exchange of the first one succeeds as well. -/
theorem head_reused_inserts_twice :
    let entry : Nat → Entry := fun k ↦ if k = 0 then ⟨4103, 0⟩ else ⟨7, 3600001⟩
    let address : Nat → Nat := fun k ↦ if k = 1 then 1 else 0
    ∃ s : Memory Bool defaultBuckets, (dedupMemory Bool defaultBuckets entry address).ReachableWith
        (fun s l ↦ s.Reclaims address l) s ∧
      s.history = [.inserted 0, .removed 0 3600001, .inserted 2, .inserted 1] ∧
      (∃ chain, Linked s.next (s.heads 7) chain ∧
        chain.map (fun a ↦ (s.read entry a).id) = [7, 7]) ∧ ¬ s.Correct entry address := by
  intro entry address
  let m := dedupMemory Bool defaultBuckets entry address
  have hrun : (m.runWith (fun s l ↦ s.unread l = true) m.start
      (List.flatten [[.callInsert false], List.replicate 3 (.inserter false),
        [.callInsert true], List.replicate 3 (.inserter true), [.callCleanup 3600001],
        List.replicate 10 .cleaner, [.callInsert false], List.replicate 3 (.inserter false),
        [.inserter true]])).map
        (fun s ↦ ((s.heads 7, s.next 1, s.next 0), (s.read entry 1).id, (s.read entry 0).id,
          s.history)) =
      some ((some 1, some 0, none), 7, 7,
        [.inserted 0, .removed 0 3600001, .inserted 2, .inserted 1]) := by
    decide +kernel
  obtain ⟨s, hrun, hs⟩ := Option.map_eq_some_iff.mp hrun
  simp only [Prod.mk.injEq] at hs
  obtain ⟨⟨hhead, hnext, hlast⟩, hfirst, hsecond, hhistory⟩ := hs
  have hreach : m.ReachableWith (fun s l ↦ s.Reclaims address l) s :=
    (Machine.ReachableWith.run .start hrun).mono fun _ _ h ↦ Memory.reclaims_of_unread h
  refine ⟨s, hreach, hhistory, ⟨[1, 0], ?_, ?_⟩, fun hcorrect ↦ ?_⟩
  · simp only [Linked, hhead, hnext, hlast, and_self]
  · simp only [List.map_cons, List.map_nil, hfirst, hsecond]
  · obtain ⟨nowMs, hsublist⟩ := hcorrect.spaced 2 1 (by rw [hhistory]; decide) rfl
    have hremoved := hsublist.subset (List.mem_cons_of_mem _ List.mem_cons_self)
    simp [hhistory] at hremoved

end Runs

end EventStreamCore.Queues.DedupThreads
