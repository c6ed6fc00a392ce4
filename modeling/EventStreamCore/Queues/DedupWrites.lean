import EventStreamCore.Queues.DedupChains

/-!
# Writes to the chains of the deduplication table

The three writes that change a chain: the compare-exchange of an insert puts its entry before
the head, and the cleanup takes an entry off the head or out of the middle. Each keeps the table
and leaves the other threads what they rely on.
-/

namespace EventStreamCore.Queues.DedupThreads
open EventStreamCore.Lib

universe u

variable {τ : Type u} {n : Nat}

section Publish

variable {entry : Nat → Entry} {s : State τ n} {chain : Fin n → List Nat}
  {node : Nat} {head : Option Nat}

/-- A chain whose head an insert finds unchanged holds no entry with its id. -/
theorem Covers.id_new [NeZero n] {i : Fin n} (h : Covers entry s (chain i) node head none [])
    (htable : s.Table entry chain) (hhead : s.heads i = head) :
    ∀ x ∈ chain i, (entry x).id ≠ (entry node).id := by
  intro x hx hid
  have hlinked := htable.linked i
  cases hchain : chain i with
  | nil =>
    rw [hchain] at hx
    cases hx
  | cons a l =>
    rw [hchain] at hx hlinked
    have ha : head = some a := hhead.symm.trans hlinked.1
    have hfound := h.found a l ha (hchain ▸ List.Sublist.refl _) x hx hid
    cases hfound

/-- The heads, the pointers and the history after a successful compare-exchange of `insert`. -/
def State.publish (s : State τ n) (i : Fin n) (node : Nat) (inserters : τ → InsertPc) :
    State τ n :=
  { s with
    inserters := inserters
    heads := Function.update s.heads i (some node)
    history := s.history ++ [.inserted node] }

theorem published_publish {i : Fin n} {inserters : τ → InsertPc} (a : Nat) :
    (s.publish i node inserters).Published a ↔ s.Published a ∨ a = node := by
  simp only [State.Published, State.publish, List.mem_append, List.mem_singleton,
    DedupEvent.inserted.injEq]

theorem subset_publish {i : Fin n} (j : Fin n) :
    chain j ⊆ Function.update chain i (node :: chain i) j := by
  revert j
  apply (Function.forall_update_iff chain fun j l ↦ chain j ⊆ l).mpr
  exact ⟨List.subset_cons_self node _, fun j _ ↦ List.Subset.refl _⟩

/-- A new head whose id is not on the chain. -/
theorem State.Table.publish [NeZero n] (h : s.Table entry chain) (hhidden : s.Hidden node)
    (inserters : τ → InsertPc) (i : Fin n)
    (hi : LockFreeDeduplicator.bucketIdx (entry node).id = i) (hnext : s.next node = s.heads i)
    (hnew : ∀ x ∈ chain i, (entry x).id ≠ (entry node).id) :
    (s.publish i node inserters).Table entry (Function.update chain i (node :: chain i)) where
  linked j := by
    by_cases hj : j = i
    · rw [hj]
      simp only [State.publish, Function.update_self]
      exact (h.linked i).cons hnext
    · simp only [State.publish, Function.update_of_ne hj]
      exact h.linked j
  bucket := by
    apply (Function.forall_update_iff chain fun j l ↦
      ∀ a ∈ l, LockFreeDeduplicator.bucketIdx (entry a).id = j).mpr
    exact ⟨List.forall_mem_cons.mpr ⟨hi, h.bucket i⟩, fun j _ ↦ h.bucket j⟩
  ids := by
    apply (Function.forall_update_iff chain fun _ l ↦ (l.map fun a ↦ (entry a).id).Nodup).mpr
    refine ⟨?_, fun j _ ↦ h.ids j⟩
    rw [List.map_cons, List.nodup_cons]
    refine ⟨fun hmem ↦ ?_, h.ids i⟩
    obtain ⟨x, hx, hid⟩ := List.mem_map.mp hmem
    exact hnew x hx hid
  published := by
    have hold : ∀ j, ∀ a ∈ chain j, (s.publish i node inserters).Published a := fun j a ha ↦
      (published_publish a).mpr (.inl (h.published j a ha))
    apply (Function.forall_update_iff chain fun _ l ↦
      ∀ a ∈ l, (s.publish i node inserters).Published a).mpr
    exact ⟨List.forall_mem_cons.mpr ⟨(published_publish node).mpr (.inr rfl), hold i⟩,
      fun j _ ↦ hold j⟩
  fresh a ha := by
    obtain ha | rfl := (published_publish a).mp ha
    · exact h.fresh a ha
    · exact hhidden.1
  kept a ha := by
    obtain ha | rfl := (published_publish a).mp ha
    · obtain hmem | ⟨nowMs, hpair⟩ := h.kept a ha
      · exact .inl (subset_publish _ hmem)
      · exact .inr ⟨nowMs, List.sublist_append_of_sublist_left hpair⟩
    · left
      rw [hi, Function.update_self]
      exact List.mem_cons_self
  expired a nowMs ha := by
    obtain ha | ha := List.mem_append.mp ha
    · exact h.expired a nowMs ha
    · cases List.mem_singleton.mp ha
  taken a nowMs ha := by
    obtain ha | ha := List.mem_append.mp ha
    · obtain ⟨hpublished, hout⟩ := h.taken a nowMs ha
      refine ⟨(published_publish a).mpr (.inl hpublished), ?_⟩
      have hne : a ≠ node := fun he ↦ hhidden.2 (he ▸ hpublished)
      apply (Function.forall_update_iff chain fun _ l ↦ a ∉ l).mpr
      exact ⟨List.not_mem_cons_of_ne_of_not_mem hne (hout i), fun j _ ↦ hout j⟩
    · cases List.mem_singleton.mp ha
  spaced a b hpair hid := by
    obtain hpair | ⟨ha, hb⟩ := pair_sublist_concat.mp hpair
    · obtain ⟨nowMs, htriple⟩ := h.spaced a b hpair hid
      exact ⟨nowMs, List.sublist_append_of_sublist_left htriple⟩
    · -- the earlier entry is not on the chain any more, so it has been removed
      cases hb
      obtain hmem | ⟨nowMs, hremoved⟩ := h.kept a ha
      · rw [hid, hi] at hmem
        exact absurd hid (hnew a hmem)
      · exact ⟨nowMs, hremoved.append (List.Sublist.refl [DedupEvent.inserted node])⟩

/-- The other inserts can rely on a new head that was hidden. -/
theorem Rely.publish (hhidden : s.Hidden node) (inserters : τ → InsertPc) (i : Fin n) :
    Rely s (s.publish i node inserters) chain (Function.update chain i (node :: chain i))
      fun a ↦ a = node where
  published a ha := (published_publish a).mpr (.inl ha)
  hidden a ha hown := by
    refine ⟨⟨ha.1, fun hp ↦ ?_⟩, rfl⟩
    obtain hp | rfl := (published_publish a).mp hp
    · exact ha.2 hp
    · exact hown rfl
  order j a l ha hl := by
    by_cases hj : j = i
    · rw [hj, Function.update_self] at hl
      rw [hj]
      obtain hl | ⟨r, hr, -⟩ := List.sublist_cons_iff.mp hl
      · exact hl
      · cases hr
        exact absurd ha hhidden.2
    · rw [Function.update_of_ne hj] at hl
      exact hl
  ahead p w hw _ := ⟨w, hw, List.Subset.refl w, fun _ _ hx _ ↦ hx⟩

end Publish

section Remove

variable {entry : Nat → Entry} {s : State τ n} {chain chain' : Fin n → List Nat}
  {b : Nat} {nowMs : UInt64} {next : Nat → Option Nat} {heads : Fin n → Option Nat}
  {pc : CleanerPc n}

/-- The table after the cleanup has taken an entry out of a chain. -/
def State.remove (s : State τ n) (next : Nat → Option Nat) (heads : Fin n → Option Nat)
    (pc : CleanerPc n) (b : Nat) (nowMs : UInt64) : State τ n :=
  { s with
    next := next
    heads := heads
    cleaner := pc
    history := s.history ++ [.removed b nowMs] }

theorem published_remove (a : Nat) :
    (s.remove next heads pc b nowMs).Published a ↔ s.Published a := by
  simp only [State.Published, State.remove, List.mem_append, List.mem_singleton, reduceCtorEq,
    or_false]

/-- Chains that lose one expired entry. -/
theorem State.Table.remove [NeZero n] (h : s.Table entry chain) (hpublished : s.Published b)
    (hexpired : (entry b).expired nowMs) (hlinked : ∀ i, Linked next (heads i) (chain' i))
    (hsub : ∀ i, (chain' i).Sublist (chain i)) (hout : ∀ i, b ∉ chain' i)
    (hkeep : ∀ i, ∀ a ∈ chain i, a ≠ b → a ∈ chain' i) :
    (s.remove next heads pc b nowMs).Table entry chain' where
  linked := hlinked
  bucket i a ha := h.bucket i a ((hsub i).subset ha)
  ids i := (h.ids i).sublist ((hsub i).map _)
  published i a ha := (published_remove a).mpr (h.published i a ((hsub i).subset ha))
  fresh a ha := h.fresh a ((published_remove a).mp ha)
  kept a ha := by
    have hbefore : s.Published a := (published_remove a).mp ha
    by_cases hab : a = b
    · rw [hab] at hbefore ⊢
      exact .inr ⟨nowMs, (List.singleton_sublist.mpr hbefore).append (List.Sublist.refl [_])⟩
    · obtain hmem | ⟨earlier, hpair⟩ := h.kept a hbefore
      · exact .inl (hkeep _ a hmem hab)
      · exact .inr ⟨earlier, List.sublist_append_of_sublist_left hpair⟩
  expired a atMs ha := by
    obtain ha | ha := List.mem_append.mp ha
    · exact h.expired a atMs ha
    · cases List.mem_singleton.mp ha
      exact hexpired
  taken a atMs ha := by
    obtain ha | ha := List.mem_append.mp ha
    · obtain ⟨hbefore, hgone⟩ := h.taken a atMs ha
      exact ⟨(published_remove a).mpr hbefore, fun i hi ↦ hgone i ((hsub i).subset hi)⟩
    · cases List.mem_singleton.mp ha
      exact ⟨(published_remove b).mpr hpublished, hout⟩
  spaced a c hpair hid := by
    obtain hpair | ⟨-, hc⟩ := pair_sublist_concat.mp hpair
    · obtain ⟨atMs, htriple⟩ := h.spaced a c hpair hid
      exact ⟨atMs, List.sublist_append_of_sublist_left htriple⟩
    · cases hc

/-- The inserts can rely on a removal that leaves their own entries alone and takes nothing but
the removed entry out of what is ahead of them. -/
theorem Rely.remove (hsub : ∀ i, (chain' i).Sublist (chain i)) (hout : ∀ i, b ∉ chain' i)
    (hhidden : ∀ a, s.Hidden a → next a = s.next a)
    (hahead : ∀ p w, Linked s.next p w →
      ∃ w', Linked next p w' ∧ w' ⊆ w ∧ ∀ x ∈ w, x ≠ b → x ∈ w') :
    Rely s (s.remove next heads pc b nowMs) chain chain' fun _ ↦ False where
  published a := (published_remove a).mpr
  hidden a ha _ := ⟨⟨ha.1, fun hp ↦ ha.2 ((published_remove a).mp hp)⟩, hhidden a ha⟩
  order i _ _ _ hl := hl.trans (hsub i)
  ahead p w hw _ := by
    obtain ⟨w', hlinked, hsubset, hkeep⟩ := hahead p w hw
    refine ⟨w', hlinked, hsubset, fun i x hx hchain ↦ hkeep x hx ?_⟩
    rintro rfl
    exact hout i hchain

end Remove

end EventStreamCore.Queues.DedupThreads
