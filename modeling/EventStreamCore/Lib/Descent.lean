import EventStreamCore.Lib.Machine

/-!
# Measures on machines

General support, independent of any program. A natural number attached to each state bounds
what runs can do in two ways: if steps of a kind lower it and no other step raises it, a run
takes only so many steps of that kind; if wherever the goal is not yet reached some step lowers
it, the goal is reached from everywhere.
-/

namespace EventStreamCore.Lib.Machine

universe u v

variable {σ : Type u} {ι : Type v} {m : Machine σ ι} {I goal : σ → Prop} {allowed : ι → Prop}
  {counted : σ → ι → Bool} {μ : σ → Nat} {s t : σ} {ls : List ι}

/-- How many steps of a kind a list of labels takes. -/
def countRun (m : Machine σ ι) (counted : σ → ι → Bool) (s : σ) : List ι → Nat
  | [] => 0
  | l :: ls => (counted s l).toNat + (m.step s l).elim 0 fun t ↦ m.countRun counted t ls

/-- The count of a run whose first step is known. -/
theorem countRun_cons_of_step {l : ι} (h : m.step s l = some t) (ls : List ι) :
    m.countRun counted s (l :: ls) = (counted s l).toNat + m.countRun counted t ls := by
  rw [countRun, h]
  rfl

/-- Under the invariant the counted steps are paid for by the measure, which no allowed step
raises. -/
structure Pays (m : Machine σ ι) (I : σ → Prop) (allowed : ι → Prop) (counted : σ → ι → Bool)
    (μ : σ → Nat) : Prop where
  keeps : ∀ s l t, I s → allowed l → m.step s l = some t → I t
  pays : ∀ s l t, I s → allowed l → m.step s l = some t → μ t + (counted s l).toNat ≤ μ s

/-- An allowed run keeps the invariant, and what the measure loses pays for its counted steps. -/
theorem Pays.run (h : m.Pays I allowed counted μ) (hs : I s) (hls : ∀ l ∈ ls, allowed l)
    (hr : m.run s ls = some t) : I t ∧ μ t + m.countRun counted s ls ≤ μ s := by
  induction ls generalizing s with
  | nil =>
    cases hr
    exact ⟨hs, Nat.le_refl _⟩
  | cons l ls ih =>
    have hl : allowed l := hls l List.mem_cons_self
    rw [run_cons] at hr
    cases hstep : m.step s l with
    | none =>
      rw [hstep] at hr
      cases hr
    | some r =>
      rw [hstep] at hr
      have hpaid := h.pays s l r hs hl hstep
      obtain ⟨ht, hrest⟩ :=
        ih (h.keeps s l r hs hl hstep) (fun k hk ↦ hls k (List.mem_cons_of_mem l hk)) hr
      refine ⟨ht, ?_⟩
      rw [countRun_cons_of_step hstep]
      omega

/-- Under the invariant some allowed step lowers the measure unless the goal is reached. -/
structure Descent (m : Machine σ ι) (I : σ → Prop) (allowed : ι → Prop) (goal : σ → Prop)
    (μ : σ → Nat) : Prop where
  keeps : ∀ s l t, I s → allowed l → m.step s l = some t → I t
  descend : ∀ s, I s → ¬goal s → ∃ l t, allowed l ∧ m.step s l = some t ∧ μ t < μ s

/-- The goal is reached by an allowed run no longer than the measure. -/
theorem Descent.exists_run (h : m.Descent I allowed goal μ) (hs : I s) :
    ∃ ls t, (∀ l ∈ ls, allowed l) ∧ m.run s ls = some t ∧ goal t ∧ ls.length ≤ μ s := by
  induction hn : μ s using Nat.strongRecOn generalizing s with
  | ind n ih =>
    by_cases hg : goal s
    · exact ⟨[], s, fun l hl ↦ absurd hl List.not_mem_nil, rfl, hg, Nat.zero_le n⟩
    · obtain ⟨l, r, hl, hstep, hlt⟩ := h.descend s hs hg
      obtain ⟨ls, t, hls, hr, ht, hlen⟩ := ih (μ r) (hn ▸ hlt) (h.keeps s l r hs hl hstep) rfl
      refine ⟨l :: ls, t, ?_, ?_, ht, ?_⟩
      · intro k hk
        rcases List.mem_cons.mp hk with rfl | hk
        · exact hl
        · exact hls k hk
      · rw [run_cons_of_step hstep]
        exact hr
      · rw [List.length_cons]
        omega

end EventStreamCore.Lib.Machine
