import Mathlib.Data.List.DropRight

/-!
# Lines and fields of a text

General support, independent of any format: a text over any alphabet is cut into lines at a
separator, a line into fields at the first occurrence of a letter, and a field is what remains
between the blanks on both sides. Literals and numbers are written in ASCII.
-/

namespace EventStreamCore.Lib

universe u

variable {α : Type u}

section Lines

variable [DecidableEq α]

/-- The lines of a text of which `line` has been read already; what follows the last separator is
a line only if it is not empty. -/
def linesFrom (sep : α) (line : List α) : List α → List (List α)
  | [] => if line.isEmpty then [] else [line]
  | c :: rest =>
    if c = sep then line :: linesFrom sep [] rest else linesFrom sep (line ++ [c]) rest

/-- The lines of a text. -/
def lines (sep : α) (text : List α) : List (List α) := linesFrom sep [] text

/-- The text in which each line is followed by the separator. -/
def terminated (sep : α) (ls : List (List α)) : List α := ls.flatMap (· ++ [sep])

private theorem linesFrom_append (sep : α) (line part rest : List α) (h : sep ∉ part) :
    linesFrom sep line (part ++ rest) = linesFrom sep (line ++ part) rest := by
  induction part generalizing line with
  | nil => rw [List.nil_append, List.append_nil]
  | cons c part ih =>
    have hc : c ≠ sep := fun heq ↦ h (heq ▸ List.mem_cons_self)
    have hpart : sep ∉ part := fun hmem ↦ h (List.mem_cons_of_mem c hmem)
    rw [List.cons_append, linesFrom, if_neg hc, ih (line ++ [c]) hpart, List.append_assoc,
      List.singleton_append]

/-- A separator ends a line. -/
theorem lines_append_sep {sep : α} {line : List α} (h : sep ∉ line) (rest : List α) :
    lines sep (line ++ sep :: rest) = line :: lines sep rest := by
  rw [lines, linesFrom_append sep [] line _ h, List.nil_append, linesFrom, if_pos rfl]
  rfl

/-- A text without separator is one line, unless it is empty. -/
theorem lines_of_notMem {sep : α} {line : List α} (h : sep ∉ line) :
    lines sep line = if line.isEmpty then [] else [line] := by
  have hlines := linesFrom_append sep [] line [] h
  rw [List.append_nil, List.nil_append] at hlines
  rw [lines, hlines, linesFrom]

/-- Lines written one after another are read back, with a last one that may lack its
separator. -/
theorem lines_terminated_append {sep : α} {ls : List (List α)} (h : ∀ l ∈ ls, sep ∉ l)
    (rest : List α) : lines sep (terminated sep ls ++ rest) = ls ++ lines sep rest := by
  induction ls with
  | nil => rfl
  | cons l ls ih =>
    have hrest : ∀ l' ∈ ls, sep ∉ l' := fun l' hl' ↦ h l' (List.mem_cons_of_mem l hl')
    rw [terminated, List.flatMap_cons, List.append_assoc, List.append_assoc,
      List.singleton_append, lines_append_sep (h l List.mem_cons_self)]
    exact congrArg (l :: ·) (ih hrest)

/-- Lines without separator can be told from the text of them. -/
theorem terminated_inj {sep : α} {ls ls' : List (List α)} (h : ∀ l ∈ ls, sep ∉ l)
    (h' : ∀ l ∈ ls', sep ∉ l) (heq : terminated sep ls = terminated sep ls') : ls = ls' := by
  have hlines := lines_terminated_append h []
  have hlines' := lines_terminated_append h' []
  rw [heq, hlines'] at hlines
  exact (List.append_cancel_right hlines).symm

/-- The text of lines without separator has one separator for each. -/
theorem count_terminated {sep : α} {ls : List (List α)} (h : ∀ l ∈ ls, sep ∉ l) :
    (terminated sep ls).count sep = ls.length := by
  induction ls with
  | nil => rfl
  | cons l ls ih =>
    have hrest := ih fun l' hl' ↦ h l' (List.mem_cons_of_mem l hl')
    have hline : (l ++ [sep]).count sep = 1 := by
      rw [List.count_append, List.count_eq_zero_of_not_mem (h l List.mem_cons_self),
        List.count_singleton_self]
    rw [terminated, List.flatMap_cons, List.count_append, hline, List.length_cons, Nat.add_comm]
    exact congrArg (· + 1) hrest

/-! ### Lines written through a buffer -/

/-- The text in which each line, followed by the separator, is cut off at a limit. -/
def cutTerminated (sep : α) (limit : Nat) (ls : List (List α)) : List α :=
  ls.flatMap fun l ↦ (l ++ [sep]).take limit

private theorem count_cut {sep : α} (limit : Nat) {l : List α} (h : sep ∉ l) :
    ((l ++ [sep]).take limit).count sep = if l.length < limit then 1 else 0 := by
  by_cases hfits : l.length < limit
  · have hlength : (l ++ [sep]).length ≤ limit := by
      rw [List.length_append]
      exact hfits
    rw [if_pos hfits, List.take_of_length_le hlength, List.count_append,
      List.count_eq_zero_of_not_mem h, List.count_singleton_self]
  · rw [if_neg hfits, List.take_append_of_le_length (Nat.le_of_not_lt hfits)]
    exact List.count_eq_zero_of_not_mem fun hmem ↦ h (List.mem_of_mem_take hmem)

private theorem count_cutTerminated {sep : α} (limit : Nat) {ls : List (List α)}
    (h : ∀ l ∈ ls, sep ∉ l) : (cutTerminated sep limit ls).count sep ≤ ls.length ∧
      ((cutTerminated sep limit ls).count sep = ls.length → ∀ l ∈ ls, l.length < limit) := by
  induction ls with
  | nil => exact ⟨Nat.le_refl 0, fun _ l hl ↦ absurd hl List.not_mem_nil⟩
  | cons l ls ih =>
    obtain ⟨hle, hall⟩ := ih fun l' hl' ↦ h l' (List.mem_cons_of_mem l hl')
    have hcount : (cutTerminated sep limit (l :: ls)).count sep =
        (if l.length < limit then 1 else 0) + (cutTerminated sep limit ls).count sep := by
      rw [cutTerminated, List.flatMap_cons, List.count_append, count_cut limit
        (h l List.mem_cons_self)]
      rfl
    rw [hcount, List.length_cons, List.forall_mem_cons]
    split
    · next hfits => exact ⟨by omega, fun heq ↦ ⟨hfits, hall (by omega)⟩⟩
    · exact ⟨by omega, fun heq ↦ absurd heq (by omega)⟩

omit [DecidableEq α] in
/-- Nothing is cut off when every line has room for itself and its separator. -/
theorem cutTerminated_of_lt {sep : α} {limit : Nat} {ls : List (List α)}
    (h : ∀ l ∈ ls, l.length < limit) : cutTerminated sep limit ls = terminated sep ls := by
  induction ls with
  | nil => rfl
  | cons l ls ih =>
    have hlength : (l ++ [sep]).length ≤ limit := by
      rw [List.length_append]
      exact h l List.mem_cons_self
    have hrest := ih fun l' hl' ↦ h l' (List.mem_cons_of_mem l hl')
    rw [cutTerminated, List.flatMap_cons, List.take_of_length_le hlength]
    exact congrArg ((l ++ [sep]) ++ ·) hrest

/-- A text of as many whole lines as were written is there only if none was cut off, and then
it has the lines that were written. -/
theorem cutTerminated_eq_terminated_iff {sep : α} {limit : Nat} {ls ls' : List (List α)}
    (h : ∀ l ∈ ls, sep ∉ l) (h' : ∀ l ∈ ls', sep ∉ l) (hlength : ls'.length = ls.length) :
    cutTerminated sep limit ls = terminated sep ls' ↔ ls' = ls ∧ ∀ l ∈ ls, l.length < limit := by
  constructor
  · intro heq
    have hcount := count_terminated h'
    rw [← heq, hlength] at hcount
    have hfits := (count_cutTerminated limit h).2 hcount
    rw [cutTerminated_of_lt hfits] at heq
    exact ⟨(terminated_inj h h' heq).symm, hfits⟩
  · rintro ⟨rfl, hfits⟩
    exact cutTerminated_of_lt hfits

end Lines

/-! ### Fields -/

/-- The first letter with a property, behind letters without it. -/
theorem findIdx?_append_cons {p : α → Bool} {before : List α} {c : α} {after : List α}
    (hbefore : ∀ x ∈ before, p x = false) (hc : p c = true) :
    (before ++ c :: after).findIdx? p = some before.length := by
  have hnone : before.findIdx? p = none := by
    rw [List.findIdx?_eq_none_iff]
    exact hbefore
  rw [List.findIdx?_append, hnone, List.findIdx?_cons, if_pos hc]
  simp

/-- The first occurrence of a letter. -/
theorem idxOf?_append_cons [BEq α] [LawfulBEq α] {before : List α} {c : α} {after : List α}
    (h : c ∉ before) : (before ++ c :: after).idxOf? c = some before.length := by
  apply findIdx?_append_cons
  · intro x hx
    exact beq_false_of_ne fun heq ↦ h (heq ▸ hx)
  · exact beq_self_eq_true c

/-- Neither the first nor the last letter of a non-empty text is a blank. -/
structure Trimmed (blank : α → Bool) (s : List α) : Prop where
  ne_nil : s ≠ []
  first : ∀ c ∈ s.head?, blank c = false
  last : ∀ c ∈ s.getLast?, blank c = false

/-- A text is blank, or it is a trimmed text with blanks around it. -/
theorem blank_or_trimmed (blank : α → Bool) (s : List α) : (∀ c ∈ s, blank c = true) ∨
    ∃ left core right, s = left ++ core ++ right ∧ (∀ c ∈ left, blank c = true) ∧
      (∀ c ∈ right, blank c = true) ∧ Trimmed blank core := by
  by_cases hblank : s.dropWhile blank = []
  · exact Or.inl (List.dropWhile_eq_nil_iff.mp hblank)
  · right
    have hfirst : ∀ c ∈ (s.dropWhile blank).head?, blank c = false := by
      intro c hc
      have hhead := List.head?_dropWhile_not blank s
      rw [hc] at hhead
      simpa using hhead
    have hne : (s.dropWhile blank).rdropWhile blank ≠ [] := by
      intro hnil
      obtain ⟨c, rest, hcons⟩ := List.exists_cons_of_ne_nil hblank
      have hall := List.rdropWhile_eq_nil_iff.mp hnil c (hcons ▸ List.mem_cons_self)
      have hc := hfirst c (by rw [hcons]; rfl)
      rw [hc] at hall
      exact Bool.false_ne_true hall
    refine ⟨s.takeWhile blank, (s.dropWhile blank).rdropWhile blank,
      (s.dropWhile blank).rtakeWhile blank, ?_, ?_, ?_, hne, ?_, ?_⟩
    · rw [List.append_assoc, List.rdropWhile_append_rtakeWhile, List.takeWhile_append_dropWhile]
    · intro c hc
      exact List.mem_takeWhile_imp hc
    · intro c hc
      exact List.mem_rtakeWhile_imp hc
    · intro c hc
      obtain ⟨rest, hrest⟩ := List.rdropWhile_prefix blank (l := s.dropWhile blank)
      apply hfirst c
      rw [← hrest, List.head?_append, hc]
      rfl
    · intro c hc
      have hlast := List.rdropWhile_last_not blank (s.dropWhile blank) hne
      rw [List.getLast?_eq_getLast_of_ne_nil hne] at hc
      simpa [Option.mem_some_iff.mp hc] using hlast

/-! ### ASCII -/

/-- The bytes of a literal. -/
def literal (s : String) : List UInt8 := s.toList.map fun c ↦ UInt8.ofNat c.toNat

/-- A number in decimal. -/
def decimal (n : Nat) : List UInt8 := (Nat.toDigits 10 n).map fun c ↦ UInt8.ofNat c.toNat

/-- An integer in decimal, a negative one behind a minus sign. -/
def decimalInt : Int → List UInt8
  | .ofNat n => decimal n
  | .negSucc n => 45 :: decimal (n + 1)

/-- Decimals consist of digits. -/
theorem mem_decimal {n : Nat} {c : UInt8} (h : c ∈ decimal n) : 48 ≤ c ∧ c ≤ 57 := by
  obtain ⟨d, hd, rfl⟩ := List.mem_map.mp h
  have hdigit : 48 ≤ d.toNat ∧ d.toNat ≤ 57 :=
    Char.isDigit_iff_toNat.mp (Nat.isDigit_of_mem_toDigits (by decide) (by decide) hd)
  have hsize : d.toNat < UInt8.size := Nat.lt_of_le_of_lt hdigit.2 (by decide)
  rw [UInt8.le_iff_toNat_le, UInt8.le_iff_toNat_le, UInt8.toNat_ofNat_of_lt' hsize]
  exact hdigit

theorem notMem_decimalInt {n : Int} {c : UInt8} (h : c < 45) : c ∉ decimalInt n := by
  have hdigits (n : Nat) : c ∉ decimal n := by
    intro hmem
    have hdigit : 48 ≤ c.toNat := UInt8.le_iff_toNat_le.mp (mem_decimal hmem).1
    have hlow : c.toNat < 45 := UInt8.lt_iff_toNat_lt.mp h
    omega
  cases n with
  | ofNat n => exact hdigits n
  | negSucc n =>
    rw [decimalInt, List.mem_cons, not_or]
    exact ⟨UInt8.ne_of_lt h, hdigits (n + 1)⟩

end EventStreamCore.Lib
