import EventStreamCore.Queues.DedupThreads

/-!
# The chains of the deduplication table

What the threads of `dedup.cpp:6–155` keep. An insert walks a chain and then swings the head;
meanwhile the cleanup takes entries off the head and unlinks others, so the insert may stand on
an entry that has left the chain, and its head may have come back after other entries came and
went. Each step is first reduced to what the other threads rely on, and what an insert knows is
shown to survive it.
-/

namespace EventStreamCore.Queues.DedupThreads
open EventStreamCore.Lib

universe u

variable {τ : Type u} {n : Nat}

/-- The entry at an address has been put into the table. -/
def State.Published (s : State τ n) (a : Nat) : Prop := .inserted a ∈ s.history

/-- The entry at an address has been allocated and not put into the table. -/
def State.Hidden (s : State τ n) (a : Nat) : Prop := a < s.fresh ∧ ¬ s.Published a

/-- The entry a running `insert` has allocated. -/
def InsertPc.owns (node : Nat) : InsertPc → Prop
  | .idle => False
  | .loadHead k _ => k = node
  | .walk k _ _ _ => k = node
  | .writeNext k _ _ => k = node
  | .casHead k _ _ => k = node

/-- What an insert of `node` that loaded `head` and stands at `curr` knows of its bucket's
chain: every entry with its id that is left at or behind `head` is still `ahead`. -/
structure Covers (entry : Nat → Entry) (s : State τ n) (chain : List Nat) (node : Nat)
    (head curr : Option Nat) (ahead : List Nat) : Prop where
  start : ∀ a, head = some a → s.Published a
  linked : Linked s.next curr ahead
  published : ∀ x ∈ ahead, s.Published x
  found : ∀ a l, head = some a → (a :: l).Sublist chain →
    ∀ x ∈ a :: l, (entry x).id = (entry node).id → x ∈ ahead

/-- What an insert knows at each point of the chains. -/
def InsertPc.At [NeZero n] (entry : Nat → Entry) (s : State τ n) (chain : Fin n → List Nat) :
    InsertPc → Prop
  | .idle => True
  | .loadHead node _ => s.Hidden node
  | .walk node _ head curr => s.Hidden node ∧ ∃ ahead,
    Covers entry s (chain (LockFreeDeduplicator.bucketIdx (entry node).id)) node head (some curr)
      ahead
  | .writeNext node _ head => s.Hidden node ∧
    Covers entry s (chain (LockFreeDeduplicator.bucketIdx (entry node).id)) node head none []
  | .casHead node _ head => s.Hidden node ∧ s.next node = head ∧
    Covers entry s (chain (LockFreeDeduplicator.bucketIdx (entry node).id)) node head none []

/-- What the cleanup knows at each point; only it takes entries out of a chain. -/
def CleanerPc.At (entry : Nat → Entry) (s : State τ n) (chain : Fin n → List Nat) :
    CleanerPc n → Prop
  | .idle => True
  | .loadHead _ _ => True
  | .readHeadNext nowMs i head _ => head ∈ chain i ∧ (entry head).expired nowMs
  | .casHead nowMs i head next _ =>
    head ∈ chain i ∧ (entry head).expired nowMs ∧ s.next head = next
  | .readFirst _ i prev => prev ∈ chain i
  | .readNext _ i prev curr => prev ∈ chain i ∧ s.next prev = some curr
  | .unlink nowMs i prev curr next =>
    prev ∈ chain i ∧ s.next prev = some curr ∧ (entry curr).expired nowMs ∧ s.next curr = next

/-- The addresses on each chain, and how they agree with the history. -/
structure State.Table [NeZero n] (entry : Nat → Entry) (s : State τ n)
    (chain : Fin n → List Nat) : Prop where
  linked : ∀ i, Linked s.next (s.heads i) (chain i)
  bucket : ∀ i, ∀ a ∈ chain i, LockFreeDeduplicator.bucketIdx (entry a).id = i
  ids : ∀ i, ((chain i).map fun a ↦ (entry a).id).Nodup
  published : ∀ i, ∀ a ∈ chain i, s.Published a
  fresh : ∀ a, s.Published a → a < s.fresh
  kept : ∀ a, s.Published a → a ∈ chain (LockFreeDeduplicator.bucketIdx (entry a).id) ∨
    ∃ nowMs, [.inserted a, .removed a nowMs].Sublist s.history
  expired : ∀ a nowMs, .removed a nowMs ∈ s.history → (entry a).expired nowMs
  taken : ∀ a nowMs, .removed a nowMs ∈ s.history → s.Published a ∧ ∀ i, a ∉ chain i
  spaced : ∀ a b, [.inserted a, .inserted b].Sublist s.history → (entry a).id = (entry b).id →
    ∃ nowMs, [.inserted a, .removed a nowMs, .inserted b].Sublist s.history

/-- The table, and what each thread knows of it. -/
structure State.Inv [NeZero n] (entry : Nat → Entry) (s : State τ n)
    (chain : Fin n → List Nat) : Prop extends s.Table entry chain where
  inserters : ∀ t, (s.inserters t).At entry s chain
  owners : ∀ t u node, (s.inserters t).owns node → (s.inserters u).owns node → t = u
  cleaner : s.cleaner.At entry s chain

/-- What a step leaves to the inserts that do not own the addresses `own`: their entries are
not touched, chains lose entries or gain a new head, and no chain entry is lost on the way
from a published entry. -/
structure Rely (s t : State τ n) (chain chain' : Fin n → List Nat) (own : Nat → Prop) :
    Prop where
  published : ∀ a, s.Published a → t.Published a
  hidden : ∀ a, s.Hidden a → ¬ own a → t.Hidden a ∧ t.next a = s.next a
  order : ∀ i a l, s.Published a → (a :: l).Sublist (chain' i) → (a :: l).Sublist (chain i)
  ahead : ∀ p w, Linked s.next p w → (∀ x ∈ w, s.Published x) →
    ∃ w', Linked t.next p w' ∧ w' ⊆ w ∧ ∀ i, ∀ x ∈ w, x ∈ chain' i → x ∈ w'

section Stability

variable {entry : Nat → Entry} {s t : State τ n} {own : Nat → Prop}

/-- An insert's knowledge of a chain survives the other threads. -/
theorem Covers.rely {chain chain' : Fin n → List Nat} {i : Fin n} {node : Nat}
    {head curr : Option Nat} {ahead : List Nat} (h : Covers entry s (chain i) node head curr ahead)
    (hrely : Rely s t chain chain' own) :
    ∃ ahead', Covers entry t (chain' i) node head curr ahead' := by
  obtain ⟨w, hlinked, hsub, hkeep⟩ := hrely.ahead curr ahead h.linked h.published
  refine ⟨w, fun a ha ↦ hrely.published a (h.start a ha), hlinked,
    fun x hx ↦ hrely.published x (h.published x (hsub hx)), ?_⟩
  intro a l ha hl x hx hid
  have hold := hrely.order i a l (h.start a ha) hl
  exact hkeep i x (h.found a l ha hold x hx hid) (hl.subset hx)

/-- At the end of the chain nothing is ahead. -/
theorem Covers.nothing_ahead {chain : List Nat} {node : Nat} {head : Option Nat}
    {ahead : List Nat} (h : Covers entry s chain node head none ahead) :
    Covers entry s chain node head none [] := by
  cases ahead with
  | nil => exact h
  | cons a l => cases h.linked.1

/-- What an insert knows survives the other threads. -/
theorem InsertPc.At.rely [NeZero n] {chain chain' : Fin n → List Nat} {pc : InsertPc}
    (h : pc.At entry s chain) (hrely : Rely s t chain chain' own)
    (hown : ∀ node, pc.owns node → ¬ own node) : pc.At entry t chain' := by
  cases pc with
  | idle => trivial
  | loadHead node retryCount => exact (hrely.hidden node h (hown node rfl)).1
  | walk node retryCount head curr =>
    obtain ⟨hhidden, ahead, hcovers⟩ := h
    exact ⟨(hrely.hidden node hhidden (hown node rfl)).1, hcovers.rely hrely⟩
  | writeNext node retryCount head =>
    obtain ⟨ahead, hcovers⟩ := h.2.rely hrely
    exact ⟨(hrely.hidden node h.1 (hown node rfl)).1, hcovers.nothing_ahead⟩
  | casHead node retryCount head =>
    obtain ⟨hhidden, hnext⟩ := hrely.hidden node h.1 (hown node rfl)
    obtain ⟨ahead, hcovers⟩ := h.2.2.rely hrely
    exact ⟨hhidden, hnext.trans h.2.1, hcovers.nothing_ahead⟩

/-- What the cleanup knows survives steps that take nothing off a chain and write no pointer of
an entry on a chain. -/
theorem CleanerPc.At.mono [NeZero n] {chain chain' : Fin n → List Nat} {pc : CleanerPc n}
    (h : pc.At entry s chain) (htable : s.Table entry chain)
    (hchain : ∀ i, chain i ⊆ chain' i) (hnext : ∀ a, s.Published a → t.next a = s.next a) :
    pc.At entry t chain' := by
  have hpointer : ∀ i, ∀ a ∈ chain i, t.next a = s.next a := fun i a ha ↦
    hnext a (htable.published i a ha)
  cases pc with
  | idle => trivial
  | loadHead nowMs i => trivial
  | readHeadNext nowMs i head retries => exact ⟨hchain i h.1, h.2⟩
  | casHead nowMs i head next retries =>
    exact ⟨hchain i h.1, h.2.1, (hpointer i head h.1).trans h.2.2⟩
  | readFirst nowMs i prev => exact hchain i h
  | readNext nowMs i prev curr => exact ⟨hchain i h.1, (hpointer i prev h.1).trans h.2⟩
  | unlink nowMs i prev curr next =>
    have hcurr := (htable.linked i).mem_next h.1 h.2.1
    exact ⟨hchain i h.1, (hpointer i prev h.1).trans h.2.1, h.2.2.1,
      (hpointer i curr hcurr).trans h.2.2.2⟩

end Stability

/-- A pair in order in a history that has grown by one event. -/
theorem pair_sublist_concat {x y e : DedupEvent} {l : List DedupEvent} :
    [x, y].Sublist (l ++ [e]) ↔ [x, y].Sublist l ∨ x ∈ l ∧ y = e := by
  constructor
  · intro h
    obtain ⟨l₁, l₂, heq, hl₁, hl₂⟩ := List.sublist_append_iff.mp h
    obtain rfl | rfl := List.sublist_singleton.mp hl₂
    · rw [List.append_nil] at heq
      exact .inl (heq ▸ hl₁)
    · have hpair : [x] ++ [y] = l₁ ++ [e] := heq
      obtain ⟨rfl, hy⟩ := List.append_inj' hpair rfl
      exact .inr ⟨List.singleton_sublist.mp hl₁, List.singleton_inj.mp hy⟩
  · rintro (h | ⟨hx, rfl⟩)
    · exact List.sublist_append_of_sublist_left h
    · exact (List.singleton_sublist.mpr hx).append (List.Sublist.refl [y])

/-- A step that changes no head and no pointer another thread follows, and settles at most the
refusal of a call. -/
structure Quiet (s t : State τ n) (own : Nat → Prop) : Prop where
  heads : t.heads = s.heads
  shared : ∀ a, s.Published a → t.next a = s.next a
  hidden : ∀ a, s.Hidden a → ¬ own a → t.next a = s.next a
  fresh : s.fresh ≤ t.fresh
  history : t.history = s.history ∨ ∃ v, t.history = s.history ++ [.refused v]

namespace Quiet

variable {entry : Nat → Entry} {s t : State τ n} {chain : Fin n → List Nat} {own : Nat → Prop}

private theorem inserted_iff (h : Quiet s t own) (a : Nat) : t.Published a ↔ s.Published a := by
  unfold State.Published
  obtain hh | ⟨v, hh⟩ := h.history
  · rw [hh]
  · simp only [hh, List.mem_append, List.mem_singleton, reduceCtorEq, or_false]

private theorem removed_iff (h : Quiet s t own) (a : Nat) (nowMs : UInt64) :
    .removed a nowMs ∈ t.history ↔ .removed a nowMs ∈ s.history := by
  obtain hh | ⟨v, hh⟩ := h.history
  · rw [hh]
  · simp only [hh, List.mem_append, List.mem_singleton, reduceCtorEq, or_false]

private theorem sublist (h : Quiet s t own) : s.history.Sublist t.history := by
  obtain hh | ⟨v, hh⟩ := h.history
  · rw [hh]
  · rw [hh]
    exact List.sublist_append_left _ _

private theorem inserted_pair (h : Quiet s t own) {a b : Nat}
    (hpair : [.inserted a, .inserted b].Sublist t.history) :
    [.inserted a, .inserted b].Sublist s.history := by
  obtain hh | ⟨v, hh⟩ := h.history
  · exact hh ▸ hpair
  · rw [hh] at hpair
    obtain hpair | ⟨-, hv⟩ := pair_sublist_concat.mp hpair
    · exact hpair
    · cases hv

/-- A quiet step keeps the table. -/
theorem table [NeZero n] (h : Quiet s t own) (htable : s.Table entry chain) :
    t.Table entry chain where
  linked i := by
    rw [h.heads]
    exact (htable.linked i).congr fun a ha ↦ h.shared a (htable.published i a ha)
  bucket := htable.bucket
  ids := htable.ids
  published i a ha := (h.inserted_iff a).mpr (htable.published i a ha)
  fresh a ha := (htable.fresh a ((h.inserted_iff a).mp ha)).trans_le h.fresh
  kept a ha := by
    obtain hmem | ⟨nowMs, hpair⟩ := htable.kept a ((h.inserted_iff a).mp ha)
    · exact .inl hmem
    · exact .inr ⟨nowMs, hpair.trans h.sublist⟩
  expired a nowMs ha := htable.expired a nowMs ((h.removed_iff a nowMs).mp ha)
  taken a nowMs ha := by
    obtain ⟨hpublished, hout⟩ := htable.taken a nowMs ((h.removed_iff a nowMs).mp ha)
    exact ⟨(h.inserted_iff a).mpr hpublished, hout⟩
  spaced a b hpair hid := by
    obtain ⟨nowMs, htriple⟩ := htable.spaced a b (h.inserted_pair hpair) hid
    exact ⟨nowMs, htriple.trans h.sublist⟩

/-- The other inserts can rely on a quiet step. -/
theorem rely (h : Quiet s t own) : Rely s t chain chain own where
  published a := (h.inserted_iff a).mpr
  hidden a ha hown := by
    have hpublished : ¬ t.Published a := fun hp ↦ ha.2 ((h.inserted_iff a).mp hp)
    exact ⟨⟨ha.1.trans_le h.fresh, hpublished⟩, h.hidden a ha hown⟩
  order _ _ _ _ hl := hl
  ahead p w hw hpub := by
    have hw' := hw.congr fun a ha ↦ h.shared a (hpub a ha)
    exact ⟨w, hw', List.Subset.refl w, fun _ _ hx _ ↦ hx⟩

end Quiet

section Assembly

variable [NeZero n] {entry : Nat → Entry} {s t : State τ n} {chain chain' : Fin n → List Nat}

/-- A running insert has not put its entry into the table. -/
theorem InsertPc.At.hidden {pc : InsertPc} {node : Nat} (h : pc.At entry s chain)
    (hown : pc.owns node) : s.Hidden node := by
  cases pc with
  | idle => cases hown
  | loadHead k retryCount =>
    cases hown
    exact h
  | walk k retryCount head curr =>
    cases hown
    exact h.1
  | writeNext k retryCount head =>
    cases hown
    exact h.1
  | casHead k retryCount head =>
    cases hown
    exact h.1

/-- A step of one insert keeps the invariant when the other threads can rely on it. -/
theorem State.Inv.of_insert [DecidableEq τ] (h : s.Inv entry chain) {u : τ} {pc : InsertPc}
    (htable : t.Table entry chain') (hrely : Rely s t chain chain' fun a ↦ (s.inserters u).owns a)
    (hgrow : ∀ i, chain i ⊆ chain' i) (hshared : ∀ a, s.Published a → t.next a = s.next a)
    (hcleaner : t.cleaner = s.cleaner) (hpcs : t.inserters = Function.update s.inserters u pc)
    (hpc : pc.At entry t chain')
    (hown : ∀ node, pc.owns node → (s.inserters u).owns node ∨ node = s.fresh) :
    t.Inv entry chain' := by
  have hsame : ∀ v node, (s.inserters v).owns node → pc.owns node → v = u := by
    intro v node hv hnode
    obtain hold | rfl := hown node hnode
    · exact h.owners v u node hv hold
    · exact absurd ((h.inserters v).hidden hv).1 (Nat.lt_irrefl s.fresh)
  refine ⟨htable, fun v ↦ ?_, fun v w node hv hw ↦ ?_, ?_⟩
  · rw [hpcs]
    by_cases hvu : v = u
    · rw [hvu, Function.update_self]
      exact hpc
    · rw [Function.update_of_ne hvu]
      exact (h.inserters v).rely hrely fun node hv hu ↦ hvu (h.owners v u node hv hu)
  · rw [hpcs] at hv hw
    by_cases hvu : v = u
    · by_cases hwu : w = u
      · rw [hvu, hwu]
      · rw [hvu, Function.update_self] at hv
        rw [Function.update_of_ne hwu] at hw
        exact absurd (hsame w node hw hv) hwu
    · rw [Function.update_of_ne hvu] at hv
      by_cases hwu : w = u
      · rw [hwu, Function.update_self] at hw
        exact absurd (hsame v node hv hw) hvu
      · rw [Function.update_of_ne hwu] at hw
        exact h.owners v w node hv hw
  · rw [hcleaner]
    exact h.cleaner.mono h.toTable hgrow hshared

/-- A step of the cleanup keeps the invariant when the inserts can rely on it. -/
theorem State.Inv.of_cleanup (h : s.Inv entry chain) (htable : t.Table entry chain')
    (hrely : Rely s t chain chain' fun _ ↦ False) (hpcs : t.inserters = s.inserters)
    (hpc : t.cleaner.At entry t chain') : t.Inv entry chain' := by
  refine ⟨htable, fun v ↦ ?_, ?_, hpc⟩
  · rw [hpcs]
    exact (h.inserters v).rely hrely fun _ _ hfalse ↦ hfalse
  · rw [hpcs]
    exact h.owners

/-- A quiet step of an insert. -/
theorem State.Inv.quiet_insert [DecidableEq τ] (h : s.Inv entry chain) {u : τ} {pc : InsertPc}
    (hquiet : Quiet s t fun a ↦ (s.inserters u).owns a) (hcleaner : t.cleaner = s.cleaner)
    (hpcs : t.inserters = Function.update s.inserters u pc) (hpc : pc.At entry t chain)
    (hown : ∀ node, pc.owns node → (s.inserters u).owns node ∨ node = s.fresh) :
    t.Inv entry chain :=
  h.of_insert (hquiet.table h.toTable) hquiet.rely (fun _ ↦ List.Subset.refl _) hquiet.shared
    hcleaner hpcs hpc hown

/-- A step of the cleanup that writes nothing. -/
theorem State.Inv.setCleaner (h : s.Inv entry chain) {pc : CleanerPc n}
    (hpc : pc.At entry s chain) : State.Inv entry { s with cleaner := pc } chain := by
  have hquiet : Quiet s { s with cleaner := pc } fun _ ↦ False :=
    ⟨rfl, fun _ _ ↦ rfl, fun _ _ _ ↦ rfl, Nat.le_refl _, .inl rfl⟩
  apply h.of_cleanup (hquiet.table h.toTable) hquiet.rely rfl
  exact hpc.mono h.toTable (fun _ ↦ List.Subset.refl _) fun _ _ ↦ rfl

end Assembly

end EventStreamCore.Queues.DedupThreads
