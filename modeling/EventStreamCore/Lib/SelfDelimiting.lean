import Mathlib.Data.List.Infix

/-!
# Self-delimiting records

General support, independent of any format. A reader takes something off the front of its
input; what a forward reader reads does not depend on what follows. Records written one after
another can then be read back one by one, and a log that was cut off anywhere yields exactly
the records that are complete in it (`readAll_of_prefix`).
-/

namespace EventStreamCore.Lib

universe u v

/-- A reader that may fail; its state is the input left. -/
abbrev Reader (α : Type u) (β : Type u) : Type u := StateT (List α) Option β

namespace Reader

variable {α β γ : Type u}

/-- The next `n` letters. -/
def take (n : Nat) : Reader α (List α) := fun xs ↦
  if n ≤ xs.length then some (xs.take n, xs.drop n) else none

/-- A result that was read before, if there is one. -/
def ofOption (o : Option β) : Reader α β := fun xs ↦ o.map fun b ↦ (b, xs)

/-- Later input changes nothing but the input left, and input is only consumed. -/
def Forward (r : Reader α β) : Prop :=
  ∀ xs b ys, r xs = some (b, ys) →
    (∀ zs, r (xs ++ zs) = some (b, ys ++ zs)) ∧ ys.length ≤ xs.length

/-- A reader that succeeds hands on its result. -/
theorem bind_of_some {r : Reader α β} {f : β → Reader α γ} {xs ys : List α} {b : β}
    (h : r xs = some (b, ys)) : (r >>= f) xs = f b ys := by
  change (r xs).bind _ = _
  rw [h]
  rfl

/-- What a sequence of two readers has read. -/
theorem bind_eq_some {r : Reader α β} {f : β → Reader α γ} {xs zs : List α} {c : γ}
    (h : (r >>= f) xs = some (c, zs)) : ∃ b ys, r xs = some (b, ys) ∧ f b ys = some (c, zs) := by
  obtain ⟨⟨b, ys⟩, hr, hf⟩ := Option.bind_eq_some_iff.mp h
  exact ⟨b, ys, hr, hf⟩

/-- Reading what stands at the front. -/
theorem take_append (xs ys : List α) : take xs.length (xs ++ ys) = some (xs, ys) := by
  rw [take, if_pos (by rw [List.length_append]; omega), List.take_left, List.drop_left]

theorem forward_take (n : Nat) : (take n : Reader α (List α)).Forward := by
  intro xs b ys h
  rw [take] at h
  split at h
  · next hle =>
    cases h
    refine ⟨fun zs ↦ ?_, by rw [List.length_drop]; omega⟩
    rw [take, if_pos (by rw [List.length_append]; omega), List.take_append_of_le_length hle,
      List.drop_append_of_le_length hle]
  · cases h

theorem forward_pure (b : β) : (pure b : Reader α β).Forward := by
  intro xs b' ys h
  cases h
  exact ⟨fun zs ↦ rfl, Nat.le_refl _⟩

theorem forward_ofOption (o : Option β) : (ofOption o : Reader α β).Forward := by
  intro xs b ys h
  cases o with
  | none => cases h
  | some b' =>
    cases h
    exact ⟨fun zs ↦ rfl, Nat.le_refl _⟩

theorem Forward.bind {r : Reader α β} {f : β → Reader α γ} (hr : r.Forward)
    (hf : ∀ b, (f b).Forward) : (r >>= f).Forward := by
  intro xs c zs h
  obtain ⟨b, ys, hb, hc⟩ := bind_eq_some h
  obtain ⟨hmore, hle⟩ := hr xs b ys hb
  obtain ⟨hmore', hle'⟩ := hf b ys c zs hc
  refine ⟨fun ws ↦ ?_, hle'.trans hle⟩
  rw [bind_of_some (hmore ws), hmore' ws]

end Reader

/-- A writer and a reader of one record, with the laws that make a log readable. -/
structure SelfDelimiting (α : Type u) (β : Type v) where
  Valid : β → Prop
  write : β → List α
  read : List α → Option (β × List α)
  read_write : ∀ {b}, Valid b → read (write b) = some (b, [])
  read_append : ∀ {xs b ys}, read xs = some (b, ys) → ∀ zs, read (xs ++ zs) = some (b, ys ++ zs)
  read_shrinks : ∀ {xs b ys}, read xs = some (b, ys) → ys.length < xs.length

namespace SelfDelimiting

variable {α : Type u} {β : Type v}

/-- Records written one after another. -/
def writeAll (c : SelfDelimiting α β) (bs : List β) : List α := (bs.map c.write).flatten

/-- Read records until there is none. -/
def readAll (c : SelfDelimiting α β) (xs : List α) : List β :=
  match _h : c.read xs with
  | none => []
  | some (b, ys) => b :: c.readAll ys
termination_by xs.length
decreasing_by exact c.read_shrinks _h

variable (c : SelfDelimiting α β)

/-- Nothing can be read. -/
theorem readAll_of_none {xs : List α} (h : c.read xs = none) : c.readAll xs = [] := by
  rw [readAll]
  split <;> simp_all

/-- One record, then the rest. -/
theorem readAll_of_some {xs ys : List α} {b : β} (h : c.read xs = some (b, ys)) :
    c.readAll xs = b :: c.readAll ys := by
  rw [readAll]
  split <;> simp_all

/-- A record cut off before its end is not read. -/
theorem read_of_incomplete {b : β} (hb : c.Valid b) {xs zs : List α}
    (h : xs ++ zs = c.write b) (hz : zs ≠ []) : c.read xs = none := by
  cases hread : c.read xs with
  | none => rfl
  | some result =>
    obtain ⟨b', ys⟩ := result
    -- what was read stays the same with the missing end, which would then be left over
    have hwhole := c.read_append hread zs
    rw [h, c.read_write hb] at hwhole
    simp only [Option.some.injEq, Prod.mk.injEq] at hwhole
    exact absurd (List.append_eq_nil_iff.mp hwhole.2.symm).2 hz

/-- The first record of a log, and the rest. -/
theorem writeAll_cons (b : β) (bs : List β) :
    c.writeAll (b :: bs) = c.write b ++ c.writeAll bs := by
  rw [writeAll, List.map_cons, List.flatten_cons, ← writeAll]

/-- A first part of a log yields the records that are complete in it, and no more. -/
theorem readAll_of_prefix {bs : List β} (hbs : ∀ b ∈ bs, c.Valid b) {xs : List α}
    (h : xs <+: c.writeAll bs) :
    ∃ m ≤ bs.length, c.readAll xs = bs.take m ∧
      ∀ k ≤ bs.length, c.writeAll (bs.take k) <+: xs ↔ k ≤ m := by
  induction bs generalizing xs with
  | nil =>
    have hempty : xs = [] := List.prefix_nil.mp h
    have hnone : c.read xs = none := by
      cases hread : c.read xs with
      | none => rfl
      | some result =>
        have hlt := c.read_shrinks hread
        rw [hempty] at hlt
        exact absurd hlt (Nat.not_lt_zero _)
    refine ⟨0, Nat.le_refl _, c.readAll_of_none hnone, fun k hk ↦ ?_⟩
    simp only [Nat.le_zero.mp hk, List.take_nil, hempty, Nat.le_refl, iff_true]
    exact List.prefix_rfl
  | cons b bs ih =>
    have hb := hbs b List.mem_cons_self
    rw [writeAll_cons] at h
    by_cases hle : (c.write b).length ≤ xs.length
    · -- the first record is complete
      obtain ⟨rest, rfl⟩ := List.prefix_of_prefix_length_le (List.prefix_append _ _) h hle
      have hread := c.read_append (c.read_write hb) rest
      rw [List.nil_append] at hread
      obtain ⟨m, hm, hall, hcomplete⟩ := ih (fun x hx ↦ hbs x (List.mem_cons_of_mem _ hx))
        ((List.prefix_append_right_inj _).mp h)
      refine ⟨m + 1, Nat.succ_le_succ hm, ?_, fun k hk ↦ ?_⟩
      · rw [c.readAll_of_some hread, hall, List.take_succ_cons]
      · cases k with
        | zero => simp [writeAll]
        | succ k =>
          rw [List.take_succ_cons, writeAll_cons, List.prefix_append_right_inj,
            hcomplete k (Nat.le_of_succ_le_succ hk), Nat.succ_le_succ_iff]
    · obtain ⟨zs, hzs⟩ := List.prefix_of_prefix_length_le h (List.prefix_append _ _)
        (Nat.le_of_not_le hle)
      have hz : zs ≠ [] := by
        rintro rfl
        rw [List.append_nil] at hzs
        exact hle (Nat.le_of_eq (congrArg List.length hzs.symm))
      refine ⟨0, Nat.zero_le _, c.readAll_of_none (c.read_of_incomplete hb hzs hz), fun k _ ↦ ?_⟩
      cases k with
      | zero => simp [writeAll]
      | succ k =>
        rw [List.take_succ_cons, writeAll_cons]
        refine iff_of_false (fun hpre ↦ hle ?_) (Nat.not_succ_le_zero k)
        exact ((List.prefix_append _ _).trans hpre).length_le

/-- What can be read stays readable when the log grows. -/
theorem readAll_append (xs zs : List α) : c.readAll xs <+: c.readAll (xs ++ zs) := by
  induction hn : xs.length using Nat.strongRecOn generalizing xs with
  | ind n ih =>
    cases hread : c.read xs with
    | none =>
      rw [c.readAll_of_none hread]
      exact List.nil_prefix
    | some result =>
      obtain ⟨b, ys⟩ := result
      rw [c.readAll_of_some hread, c.readAll_of_some (c.read_append hread zs),
        List.prefix_cons_inj]
      exact ih ys.length (hn ▸ c.read_shrinks hread) ys rfl

/-- A whole log yields all its records. -/
theorem readAll_writeAll {bs : List β} (hbs : ∀ b ∈ bs, c.Valid b) :
    c.readAll (c.writeAll bs) = bs := by
  obtain ⟨m, -, hall, hcomplete⟩ := c.readAll_of_prefix hbs List.prefix_rfl
  have hm : bs.length ≤ m := by
    rw [← hcomplete bs.length (Nat.le_refl _), List.take_length]
  rw [hall, List.take_of_length_le hm]

/-- Equal logs have equal records. -/
theorem writeAll_injective {bs bs' : List β} (hbs : ∀ b ∈ bs, c.Valid b)
    (hbs' : ∀ b ∈ bs', c.Valid b) (h : c.writeAll bs = c.writeAll bs') : bs = bs' := by
  rw [← c.readAll_writeAll hbs, h, c.readAll_writeAll hbs']

end SelfDelimiting
end EventStreamCore.Lib
