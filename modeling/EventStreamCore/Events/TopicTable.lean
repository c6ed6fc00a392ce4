import EventStreamCore.Events.Dispatcher
import EventStreamCore.Lib.Fields

/-!
# Loading the topic table

`TopicTable::loadFromFile`, `src/core/events/topic_table.cpp:9–46`, for files such as
`config/topics.conf`: a line holds a topic, a colon and the name of a priority, with blanks
around both and perhaps a comment. Later lines override earlier ones; lines of another form are
skipped. A file is the sequence of its bytes.
-/

namespace EventStreamCore.Events.TopicTable
open EventStreamCore.Lib

/-- The letter that ends a line. -/
def newline : UInt8 := 10

/-- The letter that begins a comment. -/
def hash : UInt8 := 35

/-- The letter between a topic and its priority. -/
def colon : UInt8 := 58

/-- A letter of `" \t\r\n"`. -/
def isBlank (c : UInt8) : Bool := c == 32 || c == 9 || c == 13 || c == newline

/-- `find_first_not_of(" \t\r\n")`. -/
def findFirstNotOf (s : Bytes) : Option Nat := s.findIdx? fun c ↦ !isBlank c

/-- `find_last_not_of(" \t\r\n")`. -/
def findLastNotOf (s : Bytes) : Option Nat :=
  (s.reverse.findIdx? fun c ↦ !isBlank c).map fun i ↦ s.length - 1 - i

/-- The lambda `trim`; `topic_table.cpp:27–32`. -/
def trim (s : Bytes) : Bytes :=
  match findFirstNotOf s, findLastNotOf s with
  | some a, some b => (s.drop a).take (b - a + 1)
  | _, _ => []

/-- The line up to its comment. -/
def stripComment (line : Bytes) : Bytes :=
  match line.idxOf? hash with
  | some posc => line.take posc
  | none => line

/-- The chain of comparisons with the names; `topic_table.cpp:37–42`. -/
def priorityOfName (pr : Bytes) : Option EventPriority :=
  if pr = literal "BATCH" then some .batch
  else if pr = literal "LOW" then some .low
  else if pr = literal "MEDIUM" then some .medium
  else if pr = literal "HIGH" then some .high
  else if pr = literal "CRITICAL" then some .critical
  else none

/-- `table_[topic] = priority`. -/
def assign (table : TopicTable) (topic : Bytes) (priority : EventPriority) : TopicTable :=
  (topic, priority) :: table.filter fun entry ↦ entry.1 != topic

/-- The body of the loop over the lines; `topic_table.cpp:16–43`. -/
def loadLine (table : TopicTable) (line : Bytes) : TopicTable :=
  let line := stripComment line
  match line.idxOf? colon with
  | none => table
  | some pos =>
    let topic := trim (line.take pos)
    let pr := trim (line.drop (pos + 1))
    if topic.isEmpty || pr.isEmpty then table
    else
      match priorityOfName pr with
      | some priority => table.assign topic priority
      | none => table

/-- `loadFromFile`, with its answer; a file that cannot be opened has no text. -/
def loadFromFile (table : TopicTable) (file : Option Bytes) : TopicTable × Bool :=
  match file with
  | none => (table, false)
  | some text => ((lines newline text).foldl loadLine table, true)

/-! ### The table as a map -/

/-- Assigning a topic changes what is found for it and for nothing else. -/
theorem findTopic_assign (table : TopicTable) (topic other : Bytes) (priority : EventPriority) :
    (table.assign topic priority).findTopic other =
      if other = topic then some priority else table.findTopic other := by
  rw [findTopic, assign, List.lookup_cons]
  by_cases h : other = topic
  · simp [h]
  · rw [if_neg h, beq_false_of_ne h]
    change List.lookup other (table.filter fun entry ↦ entry.1 != topic) = _
    induction table with
    | nil => rfl
    | cons entry table ih =>
      by_cases hentry : entry.1 = topic
      · have hother : (other == entry.1) = false := by
          rw [hentry]
          exact beq_false_of_ne h
        rw [List.filter_cons_of_neg (by simp [hentry]), ih, findTopic, findTopic,
          List.lookup_cons, hother]
      · rw [List.filter_cons_of_pos (by simpa using hentry), findTopic, List.lookup_cons,
          List.lookup_cons, ih]
        rfl

/-- The table after assigning pairs in order. -/
def assignAll (table : TopicTable) (pairs : List (Bytes × EventPriority)) : TopicTable :=
  pairs.foldl (fun table pair ↦ table.assign pair.1 pair.2) table

/-- Pairs with other topics leave what is found for a topic. -/
theorem findTopic_assignAll_of_notMem (table : TopicTable) {topic : Bytes}
    {pairs : List (Bytes × EventPriority)} (h : topic ∉ pairs.map Prod.fst) :
    (table.assignAll pairs).findTopic topic = table.findTopic topic := by
  induction pairs generalizing table with
  | nil => rfl
  | cons pair pairs ih =>
    rw [List.map_cons, List.mem_cons, not_or] at h
    have hrest := ih (table.assign pair.1 pair.2) h.2
    rw [findTopic_assign, if_neg h.1] at hrest
    exact hrest

/-- The last pair with a topic decides what is found for it. -/
theorem findTopic_assignAll_last (table : TopicTable) {topic : Bytes} {priority : EventPriority}
    (before : List (Bytes × EventPriority)) {after : List (Bytes × EventPriority)}
    (h : topic ∉ after.map Prod.fst) :
    (table.assignAll (before ++ (topic, priority) :: after)).findTopic topic = some priority := by
  have hsplit : table.assignAll (before ++ (topic, priority) :: after) =
      ((table.assignAll before).assign topic priority).assignAll after := by
    rw [assignAll, List.foldl_append]
    rfl
  rw [hsplit, findTopic_assignAll_of_notMem _ h, findTopic_assign, if_pos rfl]

/-! ### What one line does -/

private theorem trim_of_blank {s : Bytes} (h : ∀ c ∈ s, isBlank c = true) : trim s = [] := by
  have hnone : findFirstNotOf s = none := by
    rw [findFirstNotOf, List.findIdx?_eq_none_iff]
    intro c hc
    rw [h c hc]
    rfl
  rw [trim, hnone]

/-- `trim` takes off exactly the blanks on both sides. -/
theorem trim_pad {left core right : Bytes} (hleft : ∀ c ∈ left, isBlank c = true)
    (hright : ∀ c ∈ right, isBlank c = true) (hcore : Trimmed isBlank core) :
    trim (left ++ core ++ right) = core := by
  have hleft' : ∀ c ∈ left, (!isBlank c) = false := fun c hc ↦ by rw [hleft c hc]; rfl
  have hright' : ∀ c ∈ right.reverse, (!isBlank c) = false := fun c hc ↦ by
    rw [hright c (List.mem_reverse.mp hc)]; rfl
  have hfirst : findFirstNotOf (left ++ core ++ right) = some left.length := by
    obtain ⟨c, rest, hcons⟩ := List.exists_cons_of_ne_nil hcore.ne_nil
    have hc : (!isBlank c) = true := by
      rw [hcore.first c (by rw [hcons]; rfl)]
      rfl
    rw [hcons, List.append_assoc, List.cons_append]
    exact findIdx?_append_cons hleft' hc
  have hlast : findLastNotOf (left ++ core ++ right) =
      some ((left ++ core ++ right).length - 1 - right.length) := by
    obtain ⟨c, rest, hcons⟩ := List.exists_cons_of_ne_nil
      (List.reverse_ne_nil_iff.mpr hcore.ne_nil)
    have hc : (!isBlank c) = true := by
      rw [hcore.last c (by rw [← List.head?_reverse, hcons]; rfl)]
      rfl
    rw [findLastNotOf, List.reverse_append, List.reverse_append, hcons, List.cons_append,
      findIdx?_append_cons hright' hc, List.length_reverse]
    rfl
  have hpos : 0 < core.length := List.length_pos_iff.mpr hcore.ne_nil
  have hwidth : (left ++ core ++ right).length - 1 - right.length - left.length + 1 =
      core.length := by
    rw [List.length_append, List.length_append]
    omega
  simp only [trim, hfirst, hlast]
  rw [hwidth, List.append_assoc, List.drop_left, List.take_left]

/-- What may follow the fields of a line: nothing, or a comment. -/
inductive Comment : Bytes → Prop where
  | none : Comment []
  | text {text : Bytes} (h : newline ∉ text) : Comment (hash :: text)

private theorem stripComment_append {part comment : Bytes} (h : hash ∉ part)
    (hcomment : Comment comment) : stripComment (part ++ comment) = part := by
  cases hcomment with
  | none =>
    rw [List.append_nil, stripComment, List.idxOf?_eq_none_iff.mpr h]
  | text _ =>
    rw [stripComment, idxOf?_append_cons h]
    exact List.take_left

/-- A line without a colon in front of its comment is skipped. -/
theorem loadLine_of_notMem (table : TopicTable) {part comment : Bytes} (h : hash ∉ part)
    (hcomment : Comment comment) (hcolon : colon ∉ part) :
    table.loadLine (part ++ comment) = table := by
  rw [loadLine, stripComment_append h hcomment, List.idxOf?_eq_none_iff.mpr hcolon]

/-- A line is split at its first colon. -/
theorem loadLine_colon (table : TopicTable) {left right comment : Bytes} (hleft : hash ∉ left)
    (hright : hash ∉ right) (hcolon : colon ∉ left) (hcomment : Comment comment) :
    table.loadLine (left ++ colon :: (right ++ comment)) =
      if (trim left).isEmpty || (trim right).isEmpty then table
      else
        match priorityOfName (trim right) with
        | some priority => table.assign (trim left) priority
        | none => table := by
  have hpart : hash ∉ left ++ colon :: right := by
    rw [List.mem_append, List.mem_cons, not_or, not_or]
    exact ⟨hleft, by decide, hright⟩
  have hsplit : left ++ colon :: (right ++ comment) = (left ++ colon :: right) ++ comment := by
    rw [List.append_assoc, List.cons_append]
  rw [loadLine, hsplit, stripComment_append hpart hcomment]
  simp only [idxOf?_append_cons hcolon, List.take_left]
  have hdrop : (left ++ colon :: right).drop (left.length + 1) = right := by
    rw [← List.drop_drop, List.drop_left]
    rfl
  rw [hdrop]

/-! ### Files that list pairs -/

/-- The name of a priority in a file. -/
def nameOf : EventPriority → Bytes
  | .batch => literal "BATCH"
  | .low => literal "LOW"
  | .medium => literal "MEDIUM"
  | .high => literal "HIGH"
  | .critical => literal "CRITICAL"

/-- The chain of comparisons finds each priority by its name and nothing else. -/
theorem priorityOfName_eq_some_iff (pr : Bytes) (priority : EventPriority) :
    priorityOfName pr = some priority ↔ pr = nameOf priority := by
  constructor
  · intro h
    unfold priorityOfName at h
    split at h
    · next hname => cases h; exact hname
    split at h
    · next hname => cases h; exact hname
    split at h
    · next hname => cases h; exact hname
    split at h
    · next hname => cases h; exact hname
    split at h
    · next hname => cases h; exact hname
    · cases h
  · intro h
    subst h
    cases priority <;> decide

/-- Spaces, tabs and carriage returns. -/
def Blanks (s : Bytes) : Prop := ∀ c ∈ s, c = 32 ∨ c = 9 ∨ c = 13

instance (s : Bytes) : Decidable (Blanks s) :=
  List.decidableBAll (fun c ↦ c = 32 ∨ c = 9 ∨ c = 13) s

/-- A topic that a line can name: not empty, without `#`, colon or newline, and with no blank at
either end. -/
structure Nameable (topic : Bytes) : Prop where
  trimmed : Trimmed (fun c ↦ c == 32 || c == 9 || c == 13) topic
  hash : hash ∉ topic
  colon : colon ∉ topic
  newline : newline ∉ topic

/-- The lines that give a topic a priority. -/
inductive PairLine (topic : Bytes) (priority : EventPriority) : Bytes → Prop where
  | intro {b₁ b₂ b₃ b₄ comment : Bytes} (h₁ : Blanks b₁) (h₂ : Blanks b₂) (h₃ : Blanks b₃)
      (h₄ : Blanks b₄) (hcomment : Comment comment) :
      PairLine topic priority
        (b₁ ++ topic ++ b₂ ++ colon :: (b₃ ++ nameOf priority ++ b₄ ++ comment))

/-- The lines that give no topic a priority. -/
inductive IgnoredLine : Bytes → Prop where
  | blank {line : Bytes} (h : Blanks line) : IgnoredLine line
  | comment {blanks text : Bytes} (hblanks : Blanks blanks) (h : newline ∉ text) :
      IgnoredLine (blanks ++ hash :: text)
  | noColon {line : Bytes} (hline : newline ∉ line) (h : colon ∉ line) : IgnoredLine line
  | unknownName {left right comment : Bytes} (hleft : newline ∉ left ∧ hash ∉ left ∧ colon ∉ left)
      (hright : newline ∉ right ∧ hash ∉ right) (hcomment : Comment comment)
      (h : ∀ priority b₁ b₂, Blanks b₁ → Blanks b₂ → right ≠ b₁ ++ nameOf priority ++ b₂) :
      IgnoredLine (left ++ colon :: (right ++ comment))

/-- Lines in which pairs are listed in order, with ignored lines between them. -/
inductive Lists : List (Bytes × EventPriority) → List Bytes → Prop where
  | nil : Lists [] []
  | pair {topic : Bytes} {priority : EventPriority} {line : Bytes}
      {pairs : List (Bytes × EventPriority)} {ls : List Bytes}
      (h : PairLine topic priority line) (rest : Lists pairs ls) :
      Lists ((topic, priority) :: pairs) (line :: ls)
  | ignored {line : Bytes} {pairs : List (Bytes × EventPriority)} {ls : List Bytes}
      (h : IgnoredLine line) (rest : Lists pairs ls) : Lists pairs (line :: ls)

/-- The texts of a file with these lines: the last one may lack its newline. -/
inductive IsText : List Bytes → Bytes → Prop where
  | terminated (ls : List Bytes) : IsText ls (terminated newline ls)
  | unended (ls : List Bytes) (last : Bytes) : IsText (ls ++ [last]) (terminated newline ls ++ last)

private theorem Blanks.isBlank {s : Bytes} (h : Blanks s) : ∀ c ∈ s, isBlank c = true := by
  intro c hc
  rcases h c hc with rfl | rfl | rfl <;> rfl

private theorem Blanks.notMem {s : Bytes} (h : Blanks s) {c : UInt8}
    (hc : c ≠ 32 ∧ c ≠ 9 ∧ c ≠ 13) : c ∉ s := by
  intro hmem
  rcases h c hmem with heq | heq | heq
  · exact hc.1 heq
  · exact hc.2.1 heq
  · exact hc.2.2 heq

private theorem blanks_of_isBlank {s : Bytes} (h : ∀ c ∈ s, isBlank c = true)
    (hline : newline ∉ s) : Blanks s := by
  intro c hc
  have hne : c ≠ newline := fun heq ↦ hline (heq ▸ hc)
  simpa [isBlank, hne, or_assoc] using h c hc

private theorem trimmed_isBlank {s : Bytes}
    (h : Trimmed (fun c ↦ c == 32 || c == 9 || c == 13) s) (hline : newline ∉ s) :
    Trimmed isBlank s := by
  have hletter : ∀ c ∈ s, (c == 32 || c == 9 || c == 13) = false → isBlank c = false := by
    intro c hc hblank
    have hne : (c == newline) = false := beq_false_of_ne fun heq ↦ hline (heq ▸ hc)
    rw [isBlank, hblank, hne]
    rfl
  exact ⟨h.ne_nil, fun c hc ↦ hletter c (List.mem_of_head? hc) (h.first c hc),
    fun c hc ↦ hletter c (List.mem_of_getLast? hc) (h.last c hc)⟩

private theorem nameOf_trimmed (priority : EventPriority) : Trimmed isBlank (nameOf priority) := by
  cases priority <;>
    exact ⟨List.cons_ne_nil _ _, fun _ hc ↦ by cases hc; rfl, fun _ hc ↦ by cases hc; rfl⟩

private theorem nameOf_notMem (priority : EventPriority) :
    hash ∉ nameOf priority ∧ newline ∉ nameOf priority := by
  cases priority <;> decide

/-- The line of a pair assigns the priority to the topic. -/
theorem loadLine_pair (table : TopicTable) {topic : Bytes} {priority : EventPriority}
    {line : Bytes} (htopic : Nameable topic) (h : PairLine topic priority line) :
    table.loadLine line = table.assign topic priority := by
  obtain ⟨h₁, h₂, h₃, h₄, hcomment⟩ := h
  have hleft := trim_pad h₁.isBlank h₂.isBlank (trimmed_isBlank htopic.trimmed htopic.newline)
  have hright := trim_pad h₃.isBlank h₄.isBlank (nameOf_trimmed priority)
  rw [loadLine_colon table _ _ _ hcomment, hleft, hright,
    (priorityOfName_eq_some_iff _ priority).mpr rfl]
  · rw [List.isEmpty_eq_false_iff.mpr htopic.trimmed.ne_nil,
      List.isEmpty_eq_false_iff.mpr (nameOf_trimmed priority).ne_nil]
    rfl
  · simp only [List.mem_append, not_or]
    exact ⟨⟨h₁.notMem (by decide), htopic.hash⟩, h₂.notMem (by decide)⟩
  · simp only [List.mem_append, not_or]
    exact ⟨⟨h₃.notMem (by decide), (nameOf_notMem priority).1⟩, h₄.notMem (by decide)⟩
  · simp only [List.mem_append, not_or]
    exact ⟨⟨h₁.notMem (by decide), htopic.colon⟩, h₂.notMem (by decide)⟩

/-- A line that is to be ignored changes nothing. -/
theorem loadLine_ignored (table : TopicTable) {line : Bytes} (h : IgnoredLine line) :
    table.loadLine line = table := by
  cases h with
  | blank hblank =>
    have hline := loadLine_of_notMem table (hblank.notMem (c := hash) (by decide)) Comment.none
      (hblank.notMem (by decide))
    rwa [List.append_nil] at hline
  | comment hblanks htext =>
    exact loadLine_of_notMem table (hblanks.notMem (by decide)) (Comment.text htext)
      (hblanks.notMem (by decide))
  | noColon hline hcolon =>
    have hstrip : colon ∉ stripComment line := by
      intro hmem
      rw [stripComment] at hmem
      split at hmem
      · exact hcolon (List.mem_of_mem_take hmem)
      · exact hcolon hmem
    rw [loadLine, List.idxOf?_eq_none_iff.mpr hstrip]
  | @unknownName left right comment hleft hright hcomment hname =>
    rw [loadLine_colon table hleft.2.1 hright.2 hleft.2.2 hcomment]
    rcases blank_or_trimmed isBlank right with hblank | ⟨b₁, core, b₂, rfl, hb₁, hb₂, hcore⟩
    · rw [trim_of_blank hblank, List.isEmpty_nil, Bool.or_true, if_pos rfl]
    · have hparts := hright.1
      simp only [List.mem_append, not_or] at hparts
      have hnone : priorityOfName core = none := by
        apply Option.eq_none_iff_forall_ne_some.mpr
        intro priority hsome
        have hcore' := (priorityOfName_eq_some_iff core priority).mp hsome
        apply hname priority b₁ b₂ (blanks_of_isBlank hb₁ hparts.1.1)
          (blanks_of_isBlank hb₂ hparts.2)
        rw [hcore']
      rw [trim_pad hb₁ hb₂ hcore, hnone]
      exact ite_self table

/-- The lines of a file that lists pairs assign these pairs in order. -/
theorem foldl_loadLine {pairs : List (Bytes × EventPriority)} {ls : List Bytes}
    (hlists : Lists pairs ls) (htopics : ∀ pair ∈ pairs, Nameable pair.1) (table : TopicTable) :
    ls.foldl loadLine table = table.assignAll pairs := by
  induction hlists generalizing table with
  | nil => rfl
  | pair h _ ih =>
    rw [List.foldl_cons, loadLine_pair table (htopics _ List.mem_cons_self) h]
    exact ih (fun pair hpair ↦ htopics pair (List.mem_cons_of_mem _ hpair)) _
  | ignored h _ ih =>
    rw [List.foldl_cons, loadLine_ignored table h]
    exact ih htopics table

private theorem Comment.notMem {comment : Bytes} (h : Comment comment) : newline ∉ comment := by
  cases h with
  | none => exact List.not_mem_nil
  | text htext =>
    rw [List.mem_cons, not_or]
    exact ⟨by decide, htext⟩

private theorem PairLine.notMem {topic line : Bytes} {priority : EventPriority}
    (htopic : Nameable topic) (h : PairLine topic priority line) : newline ∉ line := by
  obtain ⟨h₁, h₂, h₃, h₄, hcomment⟩ := h
  simp only [List.mem_append, List.mem_cons, not_or]
  exact ⟨⟨⟨h₁.notMem (by decide), htopic.newline⟩, h₂.notMem (by decide)⟩, by decide,
    ⟨⟨h₃.notMem (by decide), (nameOf_notMem priority).2⟩, h₄.notMem (by decide)⟩,
    hcomment.notMem⟩

private theorem IgnoredLine.notMem {line : Bytes} (h : IgnoredLine line) : newline ∉ line := by
  cases h with
  | blank hblank => exact hblank.notMem (by decide)
  | comment hblanks htext =>
    simp only [List.mem_append, List.mem_cons, not_or]
    exact ⟨hblanks.notMem (by decide), by decide, htext⟩
  | noColon hline _ => exact hline
  | unknownName hleft hright hcomment _ =>
    simp only [List.mem_append, List.mem_cons, not_or]
    exact ⟨hleft.1, by decide, hright.1, hcomment.notMem⟩

private theorem Lists.notMem {pairs : List (Bytes × EventPriority)} {ls : List Bytes}
    (hlists : Lists pairs ls) (htopics : ∀ pair ∈ pairs, Nameable pair.1) :
    ∀ line ∈ ls, newline ∉ line := by
  induction hlists with
  | nil =>
    intro line hline
    exact absurd hline List.not_mem_nil
  | pair h _ ih =>
    rw [List.forall_mem_cons]
    exact ⟨h.notMem (htopics _ List.mem_cons_self),
      ih fun pair hpair ↦ htopics pair (List.mem_cons_of_mem _ hpair)⟩
  | ignored h _ ih =>
    rw [List.forall_mem_cons]
    exact ⟨h.notMem, ih htopics⟩

/-- An empty line is no more than no line. -/
private theorem foldl_lines {ls : List Bytes} {text : Bytes} (htext : IsText ls text)
    (hlines : ∀ line ∈ ls, newline ∉ line) (table : TopicTable) :
    (lines newline text).foldl loadLine table = ls.foldl loadLine table := by
  cases htext with
  | terminated =>
    have hall := lines_terminated_append hlines []
    rw [List.append_nil] at hall
    rw [hall]
    exact congrArg (List.foldl loadLine table) (List.append_nil ls)
  | unended init last =>
    have hinit : ∀ line ∈ init, newline ∉ line :=
      fun line hline ↦ hlines line (List.mem_append_left _ hline)
    have hlast : newline ∉ last := hlines last (List.mem_append_right _ List.mem_cons_self)
    rw [lines_terminated_append hinit, lines_of_notMem hlast]
    cases last with
    | nil =>
      rw [List.foldl_append, List.foldl_append]
      exact (loadLine_ignored _ (IgnoredLine.blank fun c hc ↦ absurd hc List.not_mem_nil)).symm
    | cons c last => rfl

/-- Loading a file into an empty table recovers the pairs it lists: for a topic among them
`findTopic` gives the priority of its last pair, and it finds no other topic. -/
theorem loadFromFile_recovers {pairs : List (Bytes × EventPriority)} {ls : List Bytes}
    {text : Bytes} (htopics : ∀ pair ∈ pairs, Nameable pair.1) (hlists : Lists pairs ls)
    (htext : IsText ls text) (topic : Bytes) :
    (loadFromFile [] (some text)).2 = true ∧
      (topic ∉ pairs.map Prod.fst → (loadFromFile [] (some text)).1.findTopic topic = none) ∧
      ∀ before priority after, pairs = before ++ (topic, priority) :: after →
        topic ∉ after.map Prod.fst →
        (loadFromFile [] (some text)).1.findTopic topic = some priority := by
  have hload : (loadFromFile [] (some text)).1 = TopicTable.assignAll [] pairs :=
    (foldl_lines htext (hlists.notMem htopics) []).trans (foldl_loadLine hlists htopics [])
  refine ⟨rfl, ?absent, ?last⟩
  case absent =>
    intro habsent
    rw [hload, findTopic_assignAll_of_notMem [] habsent]
    rfl
  case last =>
    intro before priority after hsplit hafter
    rw [hload, hsplit]
    exact findTopic_assignAll_last [] before hafter

/-- A topic listed twice, with a comment line and an unknown name between its lines. -/
theorem loadFromFile_recovers_override :
    (loadFromFile [] (some (literal "# low\n a :HIGH\na:URGENT\na:LOW #a:HIGH"))).1.findTopic
      (literal "a") = some .low := by
  have htopic : Nameable (literal "a") :=
    ⟨⟨List.cons_ne_nil _ _, fun _ hc ↦ by cases hc; rfl, fun _ hc ↦ by cases hc; rfl⟩,
      by decide, by decide, by decide⟩
  have hnil : Blanks [] := by decide
  have hspace : Blanks (literal " ") := by decide
  have hcomment : IgnoredLine (literal "# low") :=
    @IgnoredLine.comment [] (literal " low") hnil (by decide)
  have hhigh : PairLine (literal "a") .high (literal " a :HIGH") :=
    @PairLine.intro _ _ (literal " ") (literal " ") [] [] [] hspace hspace hnil hnil Comment.none
  have hlow : PairLine (literal "a") .low (literal "a:LOW #a:HIGH") :=
    @PairLine.intro _ _ [] [] [] (literal " ") (literal "#a:HIGH") hnil hnil hnil hspace
      (@Comment.text (literal "a:HIGH") (by decide))
  have hunknown : IgnoredLine (literal "a:URGENT") := by
    apply @IgnoredLine.unknownName (literal "a") (literal "URGENT") [] (by decide) (by decide)
      Comment.none
    intro priority b₁ b₂ h₁ h₂ heq
    -- no name of a priority has the letter N
    have hmem : (78 : UInt8) ∈ b₁ ++ nameOf priority ++ b₂ := heq ▸ by decide
    simp only [List.mem_append, h₁.notMem (c := 78) (by decide), h₂.notMem (c := 78) (by decide),
      false_or, or_false] at hmem
    cases priority <;> exact absurd hmem (by decide)
  have hlists : Lists [(literal "a", .high), (literal "a", .low)]
      [literal "# low", literal " a :HIGH", literal "a:URGENT", literal "a:LOW #a:HIGH"] :=
    .ignored hcomment (.pair hhigh (.ignored hunknown (.pair hlow .nil)))
  have htopics : ∀ pair ∈ [(literal "a", EventPriority.high), (literal "a", .low)],
      Nameable pair.1 := by
    simpa using htopic
  exact (loadFromFile_recovers htopics hlists (.unended [literal "# low", literal " a :HIGH",
    literal "a:URGENT"] (literal "a:LOW #a:HIGH")) (literal "a")).2.2
      [(literal "a", .high)] .low [] rfl List.not_mem_nil

end EventStreamCore.Events.TopicTable
