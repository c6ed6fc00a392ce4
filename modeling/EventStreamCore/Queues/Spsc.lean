import EventStreamCore.Lib.Machine
import EventStreamCore.Lib.Circular

/-!
# The single-producer single-consumer ring

`SpscRingBuffer`, `include/eventstream/core/queues/spsc.hpp:14–56`. Each of `push`, `pop`
and `size` is given twice: as a whole, and cut at its atomic loads, atomic stores and
slot accesses, for runs in which another thread moves in between. The indices are
below `Capacity` by their type, and no sum of the source leaves `size_t`.
-/

namespace EventStreamCore.Queues
open EventStreamCore.Lib

universe u

/-- A capacity that passes the two static assertions, `spsc.hpp:16–17`. -/
structure Capacity where
  val : Nat
  pos : 0 < val
  mask : val &&& (val - 1) = 0

instance (C : Capacity) : NeZero C.val := ⟨Nat.ne_of_gt C.pos⟩

/-- Masking by `Capacity - 1` is reduction modulo the capacity. -/
theorem Capacity.and_mask (C : Capacity) (i : Nat) : i &&& (C.val - 1) = i % C.val := by
  obtain ⟨k, hk⟩ := (Nat.and_sub_one_eq_zero_iff_isPowerOfTwo (Nat.ne_of_gt C.pos)).mp C.mask
  rw [hk]
  exact Nat.and_two_pow_sub_one_eq_mod i k

/-- The masked successor `(i + 1) & (Capacity - 1)` of an index. -/
def Capacity.next (C : Capacity) (i : Fin C.val) : Fin C.val :=
  ⟨(i.val + 1) &&& (C.val - 1), by
    rw [C.and_mask]
    exact Nat.mod_lt _ C.pos⟩

/-- The successor of a position's slot is its successor's slot. -/
theorem Capacity.next_ofNat (C : Capacity) (i : Nat) :
    C.next (Fin.ofNat C.val i) = Fin.ofNat C.val (i + 1) := by
  apply Fin.ext
  change (i % C.val + 1) &&& (C.val - 1) = (i + 1) % C.val
  rw [C.and_mask, Nat.mod_add_mod]

/-- The members of the ring. -/
structure SpscRingBuffer (C : Capacity) (α : Type u) where
  buffer : Fin C.val → α
  head : Fin C.val
  tail : Fin C.val

namespace SpscRingBuffer

variable {C : Capacity} {α : Type u}

/-- A new ring; the slots hold whatever their type's default constructor leaves there. -/
def initial (C : Capacity) (buffer : Fin C.val → α) : SpscRingBuffer C α :=
  ⟨buffer, ⟨0, C.pos⟩, ⟨0, C.pos⟩⟩

/-- The value `size` returns for a pair of loaded indices, `spsc.hpp:50`. -/
def sizeOf (head tail : Fin C.val) : Nat :=
  if head.val ≥ tail.val then head.val - tail.val else C.val + head.val - tail.val

/-- `size`, uninterrupted. -/
def size (r : SpscRingBuffer C α) : Nat := sizeOf r.head r.tail

/-- `push`, uninterrupted; `spsc.hpp:23–33`. -/
def push (r : SpscRingBuffer C α) (item : α) : SpscRingBuffer C α × Bool :=
  if C.next r.head = r.tail then (r, false)
  else ({ r with buffer := Function.update r.buffer r.head item, head := C.next r.head }, true)

/-- `pop`, uninterrupted; `spsc.hpp:35–45`. -/
def pop (r : SpscRingBuffer C α) : SpscRingBuffer C α × Option α :=
  if r.tail = r.head then (r, none)
  else ({ r with tail := C.next r.tail }, some (r.buffer r.tail))

/-- Where a `push` stands: the access it makes next and the index it has loaded. -/
inductive PushPc (C : Capacity) where
  | loadHead
  | loadTail (head : Fin C.val)
  | writeSlot (head : Fin C.val)
  | storeHead (head : Fin C.val)

/-- Where a `pop` stands. -/
inductive PopPc (C : Capacity) (α : Type u) where
  | loadTail
  | loadHead (tail : Fin C.val)
  | readSlot (tail : Fin C.val)
  | storeTail (tail : Fin C.val) (item : α)

/-- Where a `size` stands. -/
inductive SizePc (C : Capacity) where
  | loadHead
  | loadTail (head : Fin C.val)

/-- One access of `push(item)`. -/
def pushStep (item : α) (r : SpscRingBuffer C α) :
    PushPc C → SpscRingBuffer C α × Progress (PushPc C) Bool
  | .loadHead => (r, .running (.loadTail r.head))
  | .loadTail head =>
    if C.next head = r.tail then (r, .returned false) else (r, .running (.writeSlot head))
  | .writeSlot head =>
    ({ r with buffer := Function.update r.buffer head item }, .running (.storeHead head))
  | .storeHead head => ({ r with head := C.next head }, .returned true)

/-- The value an access of `push` publishes: the store to `head_` publishes the item. -/
def PushPc.publishes (item : α) : PushPc C → List α
  | .storeHead _ => [item]
  | _ => []

/-- One access of `pop()`. -/
def popStep (r : SpscRingBuffer C α) :
    PopPc C α → SpscRingBuffer C α × Progress (PopPc C α) (Option α)
  | .loadTail => (r, .running (.loadHead r.tail))
  | .loadHead tail =>
    if tail = r.head then (r, .returned none) else (r, .running (.readSlot tail))
  | .readSlot tail => (r, .running (.storeTail tail (r.buffer tail)))
  | .storeTail tail item => ({ r with tail := C.next tail }, .returned (some item))

/-- One load of `size()`. -/
def sizeStep (r : SpscRingBuffer C α) : SizePc C → Progress (SizePc C) Nat
  | .loadHead => .running (.loadTail r.head)
  | .loadTail head => .returned (sizeOf head r.tail)

/-- The elements held, oldest first: the slots from `tail` on. -/
def contents (r : SpscRingBuffer C α) : List α :=
  (List.range r.size).map fun k ↦ r.buffer (Fin.ofNat C.val (r.tail.val + k))

/-- The elements held are as many as `size` says. -/
theorem length_contents (r : SpscRingBuffer C α) : r.contents.length = r.size := by
  rw [contents, List.length_map, List.length_range]

/-! ### The ring as a window on the log of everything published -/

/-- The ring shows the positions of `log` from `lo` on: `head` and `tail` are the two ends
modulo the capacity and the slots in between hold the log. -/
structure View (r : SpscRingBuffer C α) (log : List α) (lo : Nat) : Prop where
  circular : Circular r.buffer log lo
  head : r.head = Fin.ofNat C.val log.length
  tail : r.tail = Fin.ofNat C.val lo

namespace View

variable {r : SpscRingBuffer C α} {log : List α} {lo : Nat}

/-- A new ring shows the empty log. -/
theorem initial (buffer : Fin C.val → α) : (SpscRingBuffer.initial C buffer).View [] 0 where
  circular := Circular.empty buffer
  head := Fin.ext (Nat.zero_mod C.val).symm
  tail := Fin.ext (Nat.zero_mod C.val).symm

/-- `size` is the width of the window. -/
theorem size_eq (h : r.View log lo) : r.size = log.length - lo := by
  rw [size, sizeOf, h.head, h.tail]
  exact Circular.distance_ofNat h.circular.lo_le h.circular.fits

/-- The elements held are the log from `lo` on. -/
theorem contents_eq (h : r.View log lo) : r.contents = log.drop lo := by
  rw [contents, h.size_eq, ← h.circular.map_slots, h.tail]
  apply List.map_congr_left
  intro k _
  congr 1
  apply Fin.ext
  exact Nat.mod_add_mod lo C.val k

/-- One slot is always free. -/
theorem size_le (h : r.View log lo) : r.size ≤ C.val - 1 := by
  have := h.circular.fits
  have := h.circular.lo_le
  rw [h.size_eq]
  omega

/-- `push` sees a full ring exactly when every slot but one is taken. -/
theorem full_iff (h : r.View log lo) :
    C.next (Fin.ofNat C.val log.length) = r.tail ↔ log.length + 1 = lo + C.val := by
  rw [C.next_ofNat, h.tail]
  exact Circular.ofNat_succ_eq_ofNat_iff h.circular.lo_le h.circular.fits

/-- `pop` sees an empty ring exactly when the window is empty. -/
theorem empty_iff (h : r.View log lo) : Fin.ofNat C.val lo = r.head ↔ lo = log.length := by
  rw [h.head]
  exact Circular.ofNat_eq_ofNat_iff h.circular.lo_le h.circular.fits

/-- Writing the slot `head` points to changes nothing that is shown. -/
theorem write (h : r.View log lo) (item : α) :
    View { r with buffer := Function.update r.buffer (Fin.ofNat C.val log.length) item }
      log lo where
  circular := h.circular.write item
  head := h.head
  tail := h.tail

/-- Storing `head` publishes the value written there. -/
theorem publish (h : r.View log lo) (room : log.length + 1 < lo + C.val) {item : α}
    (hitem : r.buffer (Fin.ofNat C.val log.length) = item) :
    View { r with head := C.next (Fin.ofNat C.val log.length) } (log ++ [item]) lo where
  circular := h.circular.publish room hitem
  head := by rw [List.length_append, List.length_singleton, ← C.next_ofNat]
  tail := h.tail

/-- Storing `tail` gives up the oldest element. -/
theorem release (h : r.View log lo) (hne : lo < log.length) :
    View { r with tail := C.next (Fin.ofNat C.val lo) } log (lo + 1) where
  circular := h.circular.release hne
  head := h.head
  tail := C.next_ofNat lo

end View

/-- Every ring is a window on some log, whatever its indices and slots. -/
theorem exists_view (r : SpscRingBuffer C α) : ∃ log lo, r.View log lo := by
  have hhead := r.head.isLt
  have htail := r.tail.isLt
  have hsize : (r.head.val ≥ r.tail.val ∧ r.size = r.head.val - r.tail.val) ∨
      (r.head.val < r.tail.val ∧ r.size = C.val + r.head.val - r.tail.val) := by
    rw [size, sizeOf]
    split <;> omega
  have hlen : (List.replicate r.tail.val (r.buffer r.tail) ++ r.contents).length =
      r.tail.val + r.size := by
    rw [List.length_append, List.length_replicate, length_contents]
  refine ⟨List.replicate r.tail.val (r.buffer r.tail) ++ r.contents, r.tail.val, ⟨?_, ?_, ?_⟩,
    ?_, ?_⟩
  · omega
  · omega
  · intro i hlo hi
    rw [hlen] at hi
    rw [List.getElem?_append_right (by rw [List.length_replicate]; exact hlo),
      List.length_replicate, contents, List.getElem?_map, List.getElem?_range (by omega),
      Option.map_some, show r.tail.val + (i - r.tail.val) = i by omega]
  · apply Fin.ext
    rw [hlen]
    change r.head.val = (r.tail.val + r.size) % C.val
    rcases hsize with ⟨hge, hsize⟩ | ⟨hlt, hsize⟩
    · rw [show r.tail.val + r.size = r.head.val by omega, Nat.mod_eq_of_lt hhead]
    · rw [show r.tail.val + r.size = r.head.val + C.val by omega, Nat.add_mod_right,
        Nat.mod_eq_of_lt hhead]
  · exact Fin.ext (Nat.mod_eq_of_lt htail).symm

/-- One slot of every ring is free. -/
theorem contents_length_le (r : SpscRingBuffer C α) : r.contents.length ≤ C.val - 1 := by
  obtain ⟨log, lo, hv⟩ := r.exists_view
  rw [length_contents]
  exact hv.size_le

/-- `push` appends to the elements held, unless one slot short of the capacity is taken. -/
theorem push_contents (r : SpscRingBuffer C α) (item : α) :
    (r.contents.length = C.val - 1 ∧ r.push item = (r, false)) ∨
    (r.contents.length < C.val - 1 ∧ (r.push item).2 = true ∧
      (r.push item).1.contents = r.contents ++ [item]) := by
  obtain ⟨log, lo, hv⟩ := r.exists_view
  have hlo := hv.circular.lo_le
  have hfits := hv.circular.fits
  have hlen : r.contents.length = log.length - lo := by
    rw [hv.contents_eq, List.length_drop]
  have hfull := hv.full_iff
  rw [← hv.head] at hfull
  unfold push
  split
  · next h =>
    left
    have := hfull.mp h
    exact ⟨by omega, rfl⟩
  · next h =>
    right
    have := mt hfull.mpr h
    refine ⟨by omega, rfl, ?_⟩
    rw [hv.head]
    have hv' := (hv.write item).publish (by omega) (Function.update_self _ _ _)
    rw [hv'.contents_eq, hv.contents_eq, List.drop_append_of_le_length hlo]

/-- `pop` takes the oldest element held. -/
theorem pop_contents (r : SpscRingBuffer C α) :
    (r.contents = [] ∧ r.pop = (r, none)) ∨
    ∃ item, (r.pop).2 = some item ∧ r.contents = item :: (r.pop).1.contents := by
  obtain ⟨log, lo, hv⟩ := r.exists_view
  have hempty := hv.empty_iff
  rw [← hv.tail] at hempty
  unfold pop
  split
  · next h =>
    left
    refine ⟨?_, rfl⟩
    rw [hv.contents_eq, hempty.mp h, List.drop_length]
  · next h =>
    right
    have hne := mt hempty.mpr h
    have hlo := hv.circular.lo_le
    have hlt : lo < log.length := by omega
    have hitem := hv.circular.stored lo (Nat.le_refl lo) hlt
    refine ⟨r.buffer r.tail, rfl, ?_⟩
    have hv' := hv.release hlt
    rw [← hv.tail] at hv' hitem
    rw [hv'.contents_eq, hv.contents_eq, List.drop_eq_getElem_cons hlt]
    rw [List.getElem?_eq_getElem hlt] at hitem
    rw [Option.some.inj hitem]

/-- What a `push` in progress knows of the ring. -/
def PushPc.At (r : SpscRingBuffer C α) (log : List α) (lo : Nat) (item : α) : PushPc C → Prop
  | .loadHead => True
  | .loadTail head => head = Fin.ofNat C.val log.length
  | .writeSlot head => head = Fin.ofNat C.val log.length ∧ log.length + 1 < lo + C.val
  | .storeHead head =>
    head = Fin.ofNat C.val log.length ∧ log.length + 1 < lo + C.val ∧ r.buffer head = item

/-- What a `pop` in progress knows of the ring. -/
def PopPc.At (log : List α) (lo : Nat) : PopPc C α → Prop
  | .loadTail => True
  | .loadHead tail => tail = Fin.ofNat C.val lo
  | .readSlot tail => tail = Fin.ofNat C.val lo ∧ lo < log.length
  | .storeTail tail item => tail = Fin.ofNat C.val lo ∧ log[lo]? = some item

/-- What a producer's `size` in progress knows, `first` being the count at its first load. -/
def SizePc.At (log : List α) (lo first : Nat) : SizePc C → Prop
  | .loadHead => True
  | .loadTail head => head = Fin.ofNat C.val log.length ∧ log.length - lo ≤ first

/-- A consumer that gives up an element takes nothing from what a `push` knows. -/
theorem PushPc.At.release {r r' : SpscRingBuffer C α} {log : List α} {lo : Nat} {item : α}
    {pc : PushPc C} (h : pc.At r log lo item) (hb : r'.buffer = r.buffer) :
    pc.At r' log (lo + 1) item := by
  cases pc with
  | loadHead => trivial
  | loadTail head => exact h
  | writeSlot head => exact ⟨h.1, by have := h.2; omega⟩
  | storeHead head => exact ⟨h.1, by have := h.2.1; omega, by rw [hb]; exact h.2.2⟩

/-- A producer that publishes an element takes nothing from what a `pop` knows. -/
theorem PopPc.At.publish {log : List α} {lo : Nat} {pc : PopPc C α} (h : pc.At log lo)
    (item : α) : pc.At (log ++ [item]) lo := by
  cases pc with
  | loadTail => trivial
  | loadHead tail => exact h
  | readSlot tail =>
    refine ⟨h.1, ?_⟩
    have := h.2
    rw [List.length_append]
    omega
  | storeTail tail x =>
    refine ⟨h.1, ?_⟩
    obtain ⟨hlt, -⟩ := List.getElem?_eq_some_iff.mp h.2
    rw [List.getElem?_append_left hlt]
    exact h.2

/-- A consumer that gives up an element only lowers the count a `size` may still find. -/
theorem SizePc.At.release {log : List α} {lo first : Nat} {pc : SizePc C}
    (h : pc.At log lo first) : pc.At log (lo + 1) first := by
  cases pc with
  | loadHead => trivial
  | loadTail head => exact ⟨h.1, by have := h.2; omega⟩

/-- The step taken by a `push`: it goes on without changing what is shown, it publishes
its item, or it fails on a full ring. -/
inductive PushOutcome (item : α) (r : SpscRingBuffer C α) (log : List α) (lo : Nat)
    (pc : PushPc C) : SpscRingBuffer C α × Progress (PushPc C) Bool → Prop where
  | running {r' : SpscRingBuffer C α} {pc' : PushPc C} : r'.View log lo →
      pc'.At r' log lo item → pc.publishes item = [] →
      PushOutcome item r log lo pc (r', .running pc')
  | accepted {r' : SpscRingBuffer C α} : r'.View (log ++ [item]) lo →
      pc.publishes item = [item] → PushOutcome item r log lo pc (r', .returned true)
  | full : r.size = C.val - 1 → pc.publishes item = [] →
      PushOutcome item r log lo pc (r, .returned false)

/-- Every access of a `push` has one of the three outcomes. -/
theorem pushStep_outcome {item : α} {r : SpscRingBuffer C α} {log : List α} {lo : Nat}
    {pc : PushPc C} (hv : r.View log lo) (hp : pc.At r log lo item) :
    PushOutcome item r log lo pc (pushStep item r pc) := by
  cases pc with
  | loadHead => exact .running hv hv.head rfl
  | loadTail head =>
    change head = Fin.ofNat C.val log.length at hp
    rw [pushStep, hp]
    split
    · next hfull =>
      have hlen := hv.full_iff.mp hfull
      exact .full (by rw [hv.size_eq]; omega) rfl
    · next hroom =>
      have hlen := mt hv.full_iff.mpr hroom
      have := hv.circular.fits
      exact .running hv ⟨rfl, by omega⟩ rfl
  | writeSlot head =>
    obtain ⟨rfl, hroom⟩ := hp
    exact .running (hv.write item) ⟨rfl, hroom, Function.update_self _ _ _⟩ rfl
  | storeHead head =>
    obtain ⟨rfl, hroom, hitem⟩ := hp
    exact .accepted (hv.publish hroom hitem) rfl

/-- The step taken by a `pop`: it goes on, it takes the oldest element, or it finds the
ring empty. -/
inductive PopOutcome (r : SpscRingBuffer C α) (log : List α) (lo : Nat) :
    SpscRingBuffer C α × Progress (PopPc C α) (Option α) → Prop where
  | running {pc' : PopPc C α} : pc'.At log lo → PopOutcome r log lo (r, .running pc')
  | taken {r' : SpscRingBuffer C α} {item : α} : r'.View log (lo + 1) →
      r'.buffer = r.buffer → log[lo]? = some item →
      PopOutcome r log lo (r', .returned (some item))
  | empty : r.size = 0 → PopOutcome r log lo (r, .returned none)

/-- Every access of a `pop` has one of the three outcomes. -/
theorem popStep_outcome {r : SpscRingBuffer C α} {log : List α} {lo : Nat} {pc : PopPc C α}
    (hv : r.View log lo) (hp : pc.At log lo) : PopOutcome r log lo (popStep r pc) := by
  cases pc with
  | loadTail => exact .running hv.tail
  | loadHead tail =>
    change tail = Fin.ofNat C.val lo at hp
    rw [popStep, hp]
    split
    · next hempty =>
      have hlen := hv.empty_iff.mp hempty
      exact .empty (by rw [hv.size_eq]; omega)
    · next hne =>
      have hlen := mt hv.empty_iff.mpr hne
      have := hv.circular.lo_le
      exact .running ⟨rfl, by omega⟩
  | readSlot tail =>
    obtain ⟨rfl, hlt⟩ := hp
    exact .running ⟨rfl, hv.circular.stored lo (Nat.le_refl lo) hlt⟩
  | storeTail tail item =>
    obtain ⟨rfl, hitem⟩ := hp
    obtain ⟨hlt, -⟩ := List.getElem?_eq_some_iff.mp hitem
    exact .taken (hv.release hlt) rfl hitem

end SpscRingBuffer
end EventStreamCore.Queues
