import EventStreamCore.Queues.DedupWrites

/-!
# The accesses of the deduplication table

Every access of `insert`, `dedup.cpp:6–57`, and of `cleanup`, `dedup.cpp:61–155`, keeps the table
and what each thread knows of it, so both hold in every interleaving of calls whose entries
have addresses of their own.
-/

namespace EventStreamCore.Queues.DedupThreads
open EventStreamCore.Lib

universe u

variable {τ : Type u} {n : Nat}

section Steps

variable {entry : Nat → Entry} {s t : State τ n} {chain : Fin n → List Nat} {u : τ}
  {node retryCount : Nat} {head : Option Nat}

/-- The loop over the chain keeps the entry. -/
theorem InsertPc.owns_walkTo {a : Nat} {curr : Option Nat} :
    (InsertPc.walkTo node retryCount head curr).owns a ↔ node = a := by
  cases curr with
  | none => exact Iff.rfl
  | some b => exact Iff.rfl

/-- An insert steps over an entry with another id. -/
theorem Covers.advance {i : Fin n} {curr : Nat} {ahead : List Nat}
    (h : Covers entry s (chain i) node head (some curr) ahead)
    (hid : (entry curr).id ≠ (entry node).id) :
    ∃ ahead', Covers entry s (chain i) node head (s.next curr) ahead' := by
  obtain ⟨l, rfl, hl⟩ := h.linked.exists_cons
  refine ⟨l, h.start, hl, fun x hx ↦ h.published x (List.mem_cons_of_mem _ hx), ?_⟩
  intro a r ha hr x hx hx'
  obtain rfl | hmem := List.mem_cons.mp (h.found a r ha hr x hx hx')
  · exact absurd hx' hid
  · exact hmem

variable [NeZero n]

/-- An insert moves on along the chain, or to its end. -/
theorem InsertPc.At.walkTo {curr : Option Nat} {ahead : List Nat} (hhidden : s.Hidden node)
    (h : Covers entry s (chain (LockFreeDeduplicator.bucketIdx (entry node).id)) node head curr
      ahead) : (InsertPc.walkTo node retryCount head curr).At entry s chain := by
  cases curr with
  | none => exact ⟨hhidden, h.nothing_ahead⟩
  | some a => exact ⟨hhidden, ahead, h⟩

/-- The chain a head leads to covers itself. -/
theorem Covers.load (h : s.Table entry chain) (i : Fin n) (node : Nat) :
    Covers entry s (chain i) node (s.heads i) (s.heads i) (chain i) where
  start a ha := h.published i a (ha ▸ h.linked i).head_mem
  linked := h.linked i
  published := h.published i
  found _ _ _ hl _ hx _ := hl.subset hx

variable [DecidableEq τ]

/-- An insert that moves without writing, or gives its answer `false`. -/
private theorem inv_move (h : s.Inv entry chain) {pc : InsertPc} {history : List DedupEvent}
    (hhistory : history = s.history ∨ ∃ v, history = s.history ++ [.refused v])
    (hpc : pc.At entry s chain) (hown : ∀ a, pc.owns a → (s.inserters u).owns a) :
    State.Inv entry { s.setInserter u pc with history := history } chain := by
  have hquiet : ∀ own, Quiet s { s.setInserter u pc with history := history } own := fun _ ↦
    ⟨rfl, fun _ _ ↦ rfl, fun _ _ _ ↦ rfl, Nat.le_refl _, hhistory⟩
  apply h.quiet_insert (hquiet _) rfl rfl _ fun a ha ↦ .inl (hown a ha)
  exact hpc.rely (hquiet fun _ ↦ False).rely fun _ _ hfalse ↦ hfalse

private theorem inv_callInsert (h : s.Inv entry chain) :
    State.Inv entry { s.setInserter u (.loadHead s.fresh 0) with
      next := Function.update s.next s.fresh none
      fresh := s.fresh + 1 } chain := by
  have hother : ∀ a, a < s.fresh → Function.update s.next s.fresh none a = s.next a :=
    fun a ha ↦ Function.update_of_ne ha.ne _ _
  have hnew : ¬ s.Published s.fresh := fun hp ↦ Nat.lt_irrefl _ (h.fresh _ hp)
  have hquiet : Quiet s { s.setInserter u (.loadHead s.fresh 0) with
      next := Function.update s.next s.fresh none
      fresh := s.fresh + 1 } fun a ↦ (s.inserters u).owns a :=
    ⟨rfl, fun a ha ↦ hother a (h.fresh a ha), fun a ha _ ↦ hother a ha.1, Nat.le_succ _, .inl rfl⟩
  apply h.quiet_insert hquiet rfl rfl
  · exact ⟨Nat.lt_succ_self _, hnew⟩
  · intro a ha
    exact .inr ha.symm

private theorem inv_writeNext (h : s.Inv entry chain)
    (hu : s.inserters u = .writeNext node retryCount head) :
    State.Inv entry { s.setInserter u (.casHead node retryCount head) with
      next := Function.update s.next node head } chain := by
  have hat := h.inserters u
  rw [hu] at hat
  obtain ⟨hhidden, hcovers⟩ := hat
  have hshared : ∀ a, s.Published a → Function.update s.next node head a = s.next a := by
    intro a ha
    apply Function.update_of_ne
    rintro rfl
    exact hhidden.2 ha
  have hquiet : Quiet s { s.setInserter u (.casHead node retryCount head) with
      next := Function.update s.next node head } fun a ↦ (s.inserters u).owns a := by
    refine ⟨rfl, hshared, fun a _ hown ↦ ?_, Nat.le_refl _, .inl rfl⟩
    apply Function.update_of_ne
    rintro rfl
    rw [hu] at hown
    exact hown rfl
  apply h.quiet_insert hquiet rfl rfl
  · obtain ⟨ahead, hcovers'⟩ := hcovers.rely hquiet.rely
    exact ⟨hhidden, Function.update_self _ _ _, hcovers'.nothing_ahead⟩
  · intro a ha
    rw [hu]
    exact .inl ha

private theorem inv_publish (h : s.Inv entry chain)
    (hu : s.inserters u = .casHead node retryCount head)
    (hhead : s.heads (LockFreeDeduplicator.bucketIdx (entry node).id) = head) :
    ∃ chain', State.Inv entry (s.publish (LockFreeDeduplicator.bucketIdx (entry node).id) node
      (Function.update s.inserters u .idle)) chain' := by
  have hat := h.inserters u
  rw [hu] at hat
  obtain ⟨hhidden, hnext, hcovers⟩ := hat
  have hown : (fun a ↦ (s.inserters u).owns a) = fun a ↦ a = node := by
    rw [hu]
    funext a
    exact propext eq_comm
  exact ⟨_, h.of_insert (h.publish hhidden _ _ rfl (hnext.trans hhead.symm)
    (hcovers.id_new h.toTable hhead)) (hown ▸ Rely.publish hhidden _ _) subset_publish
    (fun _ _ ↦ rfl) rfl rfl trivial nofun⟩

/-- Every access of `insert` keeps the invariant. -/
theorem State.Inv.stepInsert (h : s.Inv entry chain) (hs : s.stepInsert entry u = some t) :
    ∃ chain', t.Inv entry chain' := by
  have hat := h.inserters u
  unfold State.stepInsert at hs
  cases hu : s.inserters u with
  | idle =>
    rw [hu] at hs
    cases hs
  | loadHead node retryCount =>
    simp only [hu, Option.some.injEq] at hs
    rw [hu] at hat
    subst hs
    exact ⟨chain, inv_move h (.inl rfl) (InsertPc.At.walkTo hat (Covers.load h.toTable _ node))
      fun a ha ↦ hu ▸ InsertPc.owns_walkTo.mp ha⟩
  | walk node retryCount head curr =>
    simp only [hu] at hs
    rw [hu] at hat
    obtain ⟨hhidden, ahead, hcovers⟩ := hat
    split at hs
    · cases hs
      exact ⟨chain, inv_move h (.inr ⟨node, rfl⟩) trivial fun _ ha ↦ ha.elim⟩
    · next hid =>
      cases hs
      obtain ⟨ahead', hcovers'⟩ := hcovers.advance hid
      exact ⟨chain, inv_move h (.inl rfl) (InsertPc.At.walkTo hhidden hcovers')
        fun a ha ↦ hu ▸ InsertPc.owns_walkTo.mp ha⟩
  | writeNext node retryCount head =>
    simp only [hu, Option.some.injEq] at hs
    subst hs
    exact ⟨chain, inv_writeNext h hu⟩
  | casHead node retryCount head =>
    simp only [hu] at hs
    rw [hu] at hat
    split at hs
    · next hhead =>
      cases hs
      exact inv_publish h hu hhead
    · split at hs
      · cases hs
        exact ⟨chain, inv_move h (.inl rfl) hat.1 fun a ha ↦ hu ▸ ha⟩
      · cases hs
        exact ⟨chain, inv_move h (.inr ⟨node, rfl⟩) trivial fun _ ha ↦ ha.elim⟩

end Steps

section Cleaner

variable {entry : Nat → Entry} {s t : State τ n} {chain : Fin n → List Nat}
  {nowMs : UInt64} {i : Fin n}

/-- Between two buckets the cleanup knows nothing. -/
theorem CleanerPc.at_nextBucket : (CleanerPc.nextBucket nowMs i).At entry s chain := by
  unfold CleanerPc.nextBucket
  split <;> trivial

/-- Phase 1 goes on from the first entry of the chain. -/
theorem CleanerPc.at_phase1 {p : Option Nat} (hlinked : Linked s.next p (chain i))
    (headRetries : Nat) : (CleanerPc.phase1 entry nowMs i headRetries p).At entry s chain := by
  cases p with
  | none => exact CleanerPc.at_nextBucket
  | some head =>
    have hmem : head ∈ chain i := hlinked.head_mem
    simp only [CleanerPc.phase1]
    split
    · next hexpired => exact ⟨hmem, hexpired.2⟩
    · exact hmem

/-- Phase 2 goes on behind an entry of the chain. -/
theorem CleanerPc.at_phase2 {prev : Nat} {p : Option Nat} (hprev : prev ∈ chain i)
    (hnext : s.next prev = p) : (CleanerPc.phase2 nowMs i prev p).At entry s chain := by
  cases p with
  | none => exact CleanerPc.at_nextBucket
  | some curr => exact ⟨hprev, hnext⟩

variable [NeZero n]

/-- An address is on the chain of its own bucket only. -/
theorem State.Table.eq_bucket (h : s.Table entry chain) {a : Nat} {j : Fin n} (hi : a ∈ chain i)
    (hj : a ∈ chain j) : i = j := (h.bucket i a hi).symm.trans (h.bucket j a hj)

private theorem inv_pop (h : s.Inv entry chain) {head headRetries : Nat} {next : Option Nat}
    (hpc : s.cleaner = .casHead nowMs i head next headRetries) (hhead : s.heads i = some head) :
    ∃ chain', State.Inv entry (s.remove s.next (Function.update s.heads i next)
      (.phase1 entry nowMs i 0 next) head nowMs) chain' := by
  have hat := h.cleaner
  rw [hpc] at hat
  obtain ⟨hmem, hexpired, rfl⟩ := hat
  obtain ⟨l, hchain, hfirst⟩ := (hhead ▸ h.linked i).exists_cons
  have hnodup : head ∉ l := by
    have hall := (h.linked i).nodup
    rw [hchain] at hall
    exact (List.nodup_cons.mp hall).1
  have hlinked : ∀ j, Linked s.next (Function.update s.heads i (s.next head) j)
      (Function.update chain i l j) := by
    intro j
    by_cases hj : j = i
    · rw [hj, Function.update_self, Function.update_self]
      exact hfirst
    · rw [Function.update_of_ne hj, Function.update_of_ne hj]
      exact h.linked j
  have hsub : ∀ j, (Function.update chain i l j).Sublist (chain j) := by
    apply (Function.forall_update_iff chain fun j r ↦ r.Sublist (chain j)).mpr
    exact ⟨hchain ▸ List.sublist_cons_self head l, fun j _ ↦ List.Sublist.refl (chain j)⟩
  have hkeep : ∀ j, ∀ a ∈ chain j, a ≠ head → a ∈ Function.update chain i l j := by
    apply (Function.forall_update_iff chain fun j r ↦ ∀ a ∈ chain j, a ≠ head → a ∈ r).mpr
    refine ⟨fun a ha hne ↦ ?_, fun j _ a ha _ ↦ ha⟩
    rw [hchain] at ha
    exact (List.mem_cons.mp ha).resolve_left hne
  have hout : ∀ j, head ∉ Function.update chain i l j := by
    intro j hj
    obtain rfl := h.eq_bucket hmem ((hsub j).subset hj)
    rw [Function.update_self] at hj
    exact hnodup hj
  refine ⟨_, h.of_cleanup (h.remove (h.published i head hmem) hexpired hlinked hsub hout
    hkeep) (Rely.remove hsub hout
    (fun _ _ ↦ rfl) fun p w hw ↦ ⟨w, hw, List.Subset.refl w, fun _ hx _ ↦ hx⟩) rfl ?_⟩
  apply CleanerPc.at_phase1
  rw [Function.update_self]
  exact hfirst

private theorem inv_unlink (h : s.Inv entry chain) {prev curr : Nat} {next : Option Nat}
    (hpc : s.cleaner = .unlink nowMs i prev curr next) :
    ∃ chain', State.Inv entry (s.remove (Function.update s.next prev next) s.heads
      (.phase2 nowMs i prev next) curr nowMs) chain' := by
  have hat := h.cleaner
  rw [hpc] at hat
  obtain ⟨hprev, hnext, hexpired, rfl⟩ := hat
  have hcurr := (h.linked i).mem_next hprev hnext
  have hne := (h.linked i).ne_next hprev hnext
  choose chain' hlinked hsub hkeep hskip using fun j ↦ (h.linked j).unlink hnext
  have hout : ∀ j, curr ∉ chain' j := by
    intro j hj
    obtain rfl := h.eq_bucket hcurr ((hsub j).subset hj)
    exact hskip i hprev hj
  have hhidden : ∀ a, s.Hidden a → Function.update s.next prev (s.next curr) a = s.next a := by
    intro a ha
    apply Function.update_of_ne
    rintro rfl
    exact ha.2 (h.published i a hprev)
  have hahead : ∀ p w, Linked s.next p w →
      ∃ w', Linked (Function.update s.next prev (s.next curr)) p w' ∧ w' ⊆ w ∧
        ∀ x ∈ w, x ≠ curr → x ∈ w' := by
    intro p w hw
    obtain ⟨w', hw', hsub', hkeep', -⟩ := hw.unlink hnext
    exact ⟨w', hw', hsub'.subset, hkeep'⟩
  refine ⟨chain', h.of_cleanup (h.remove (h.published i curr hcurr) hexpired hlinked hsub hout
    hkeep) (Rely.remove hsub hout hhidden hahead) rfl ?_⟩
  exact CleanerPc.at_phase2 (hkeep i prev hprev hne) (Function.update_self _ _ _)

/-- Every access of `cleanup` keeps the invariant. -/
theorem State.Inv.stepCleaner (h : s.Inv entry chain) (hs : s.stepCleaner entry = some t) :
    ∃ chain', t.Inv entry chain' := by
  have hat := h.cleaner
  unfold State.stepCleaner at hs
  cases hpc : s.cleaner with
  | idle =>
    rw [hpc] at hs
    cases hs
  | loadHead nowMs i =>
    simp only [hpc, Option.some.injEq] at hs
    subst hs
    exact ⟨chain, h.setCleaner (CleanerPc.at_phase1 (h.linked i) 0)⟩
  | readHeadNext nowMs i head headRetries =>
    simp only [hpc, Option.some.injEq] at hs
    rw [hpc] at hat
    subst hs
    exact ⟨chain, h.setCleaner ⟨hat.1, hat.2, rfl⟩⟩
  | casHead nowMs i head next headRetries =>
    simp only [hpc] at hs
    split at hs
    · next hhead =>
      cases hs
      exact inv_pop h hpc hhead
    · cases hs
      exact ⟨chain, h.setCleaner (CleanerPc.at_phase1 (h.linked i) _)⟩
  | readFirst nowMs i prev =>
    simp only [hpc, Option.some.injEq] at hs
    rw [hpc] at hat
    subst hs
    exact ⟨chain, h.setCleaner (CleanerPc.at_phase2 hat rfl)⟩
  | readNext nowMs i prev curr =>
    simp only [hpc] at hs
    rw [hpc] at hat
    split at hs
    · next hexpired =>
      cases hs
      exact ⟨chain, h.setCleaner ⟨hat.1, hat.2, hexpired, rfl⟩⟩
    · cases hs
      exact ⟨chain, h.setCleaner (CleanerPc.at_phase2 ((h.linked i).mem_next hat.1 hat.2) rfl)⟩
  | unlink nowMs i prev curr next =>
    simp only [hpc, Option.some.injEq] at hs
    subst hs
    exact inv_unlink h hpc

end Cleaner

section Runs

variable [NeZero n] {entry : Nat → Entry} {s t : State τ n} {chain : Fin n → List Nat}

/-- An empty table. -/
theorem State.Inv.initial : (State.initial : State τ n).Inv entry fun _ ↦ [] where
  linked _ := rfl
  bucket _ _ := nofun
  ids _ := List.nodup_nil
  published _ _ := nofun
  fresh _ := nofun
  kept _ := nofun
  expired _ _ := nofun
  taken _ _ := nofun
  spaced _ _ := nofun
  inserters _ := trivial
  owners _ _ _ := nofun
  cleaner := trivial

variable [DecidableEq τ]

/-- Every step of every thread keeps the invariant. -/
theorem State.Inv.step {l : Label τ} (h : s.Inv entry chain) (hs : s.step entry l = some t) :
    ∃ chain', t.Inv entry chain' := by
  cases l with
  | callInsert u =>
    simp only [State.step] at hs
    split at hs
    · cases hs
      exact ⟨chain, inv_callInsert h⟩
    · cases hs
  | inserter u => exact h.stepInsert hs
  | callCleanup nowMs =>
    simp only [State.step] at hs
    split at hs
    · cases hs
      exact ⟨chain, h.setCleaner trivial⟩
    · cases hs
  | cleaner => exact h.stepCleaner hs

/-- The invariant holds in every interleaving. -/
theorem inv_of_reachable (h : (dedupThreads τ n entry).Reachable s) :
    ∃ chain, s.Inv entry chain :=
  h.invariant (I := fun s ↦ ∃ chain, s.Inv entry chain) ⟨_, .initial⟩
    fun _ _ _ ⟨_, hi⟩ ht ↦ hi.step ht

end Runs

end EventStreamCore.Queues.DedupThreads
