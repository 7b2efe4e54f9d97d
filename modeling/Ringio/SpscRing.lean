import Ringio.BoundedFifo
import Ringio.Cursor

/-! `SpscRing` (`spsc_ring.hpp`): two free-running cursors over an array of
slots. The calls below are the whole member functions, as one thread at a time
executes them; `SpscLinearization` takes them apart into single accesses. -/
namespace Ringio
open BoundedFifo

/-- `head_`, `tail_` and `buffer_`. The capacity type is the class's
`static_assert`. -/
structure SpscRing (T : Type) (C : Capacity) where
  head : UInt64
  tail : UInt64
  buffer : Fin C.size → T

namespace SpscRing
variable {T : Type} {C : Capacity}

/-- The default constructor: zero cursors and value-initialized slots. -/
def new (T : Type) [Inhabited T] (C : Capacity) : SpscRing T C where
  head := 0
  tail := 0
  buffer := fun _ => default

/-- `buffer_[pos & kMask] = value`. -/
def writeSlot (ring : SpscRing T C) (pos : UInt64) (value : T) : SpscRing T C :=
  { ring with buffer := Function.update ring.buffer (C.index pos) value }

/-- `tail_.store(tail)`. -/
def storeTail (ring : SpscRing T C) (tail : UInt64) : SpscRing T C := { ring with tail }

/-- `head_.store(head)`. -/
def storeHead (ring : SpscRing T C) (head : UInt64) : SpscRing T C := { ring with head }

/-- `tail - head >= Capacity` on the two values a producer loaded. -/
def full (C : Capacity) (tail head : UInt64) : Bool := tail - head ≥ C.value

/-- `SpscRing::try_push`. -/
def tryPush (ring : SpscRing T C) (value : T) : Bool × SpscRing T C :=
  if full C ring.tail ring.head then (false, ring)
  else (true, (ring.writeSlot ring.tail value).storeTail (ring.tail + 1))

/-- `SpscRing::try_pop`; `none` is the `false` return. -/
def tryPop (ring : SpscRing T C) : Option T × SpscRing T C :=
  if ring.head = ring.tail then (none, ring)
  else (some (ring.buffer (C.index ring.head)), ring.storeHead (ring.head + 1))

/-- The distance between the cursors, which is the number of elements held. -/
def count (ring : SpscRing T C) : ℕ := (ring.tail - ring.head).toNat

/-- The elements between the cursors, oldest first. -/
def held (ring : SpscRing T C) : List T := C.window ring.buffer ring.head ring.count

/-- The cursors are at most a capacity apart, modulo the word size. -/
def Valid (ring : SpscRing T C) : Prop := ring.count ≤ C.size

theorem new_count [Inhabited T] : (new T C).count = 0 := by simp [count, new]

theorem new_valid [Inhabited T] : (new T C).Valid := by simp [Valid, new_count]

theorem new_held [Inhabited T] : (new T C).held = [] := by simp [held, new_count, Capacity.window]

theorem full_iff (tail head : UInt64) : full C tail head = true ↔ C.size ≤ (tail - head).toNat := by
  simp [full, UInt64.le_iff_toNat_le, Capacity.size]

theorem tail_eq (ring : SpscRing T C) : ring.tail = ring.head + .ofNat ring.count := by
  rw [count, UInt64.ofNat_toNat, UInt64.add_comm, UInt64.sub_add_cancel]

theorem head_eq_tail (ring : SpscRing T C) : ring.head = ring.tail ↔ ring.count = 0 := by
  constructor
  · intro same
    simp [count, same]
  · intro none
    rw [ring.tail_eq, none]
    simp

/-- Publishing one more element moves the cursors one further apart. -/
theorem count_storeTail {ring : SpscRing T C} (room : ring.count < C.size) :
    (ring.storeTail (ring.tail + 1)).count = ring.count + 1 := by
  have small := C.size_le
  have step : ring.tail + 1 - ring.head = UInt64.ofNat (ring.count + 1) - UInt64.ofNat 0 := by
    rw [← Cursor.ofNat_add_one, count, UInt64.ofNat_toNat]
    grind
  rw [count, storeTail, step, Cursor.toNat_sub (by omega) (by omega)]
  rfl

/-- Retiring the oldest element moves them one closer. -/
theorem count_storeHead {ring : SpscRing T C} {left : ℕ} (nonempty : ring.count = left + 1) :
    (ring.storeHead (ring.head + 1)).count = left := by
  have bound : ring.count < 2 ^ 64 := (ring.tail - ring.head).toNat_lt
  have step : ring.tail - (ring.head + 1) = UInt64.ofNat ring.count - UInt64.ofNat 1 := by
    rw [count, UInt64.ofNat_toNat]
    grind
  rw [count, storeHead, step, Cursor.toNat_sub (by omega) (by omega)]
  omega

/-- The slot behind the newest element is not one of the elements held. -/
theorem held_writeSlot {ring : SpscRing T C} (room : ring.count < C.size) (value : T) :
    (ring.writeSlot ring.tail value).held = ring.held := by
  have kept := C.window_update ring.buffer ring.head value room
  rwa [← ring.tail_eq] at kept

theorem held_storeTail {ring : SpscRing T C} (room : ring.count < C.size) :
    (ring.storeTail (ring.tail + 1)).held = ring.held ++ [ring.buffer (C.index ring.tail)] := by
  rw [held, count_storeTail room, ring.tail_eq]
  exact C.window_succ ring.buffer ring.head ring.count

theorem held_storeHead {ring : SpscRing T C} (nonempty : 0 < ring.count) :
    ring.held = ring.buffer (C.index ring.head) :: (ring.storeHead (ring.head + 1)).held := by
  obtain ⟨left, more⟩ := Nat.exists_eq_succ_of_ne_zero nonempty.ne'
  rw [held, more, C.window_cons, held, count_storeHead more]
  rfl

@[simp] theorem length_held (ring : SpscRing T C) : ring.held.length = ring.count :=
  C.length_window _ _ _

/-- A push answers as the bounded queue does and keeps the cursors in range. -/
theorem tryPush_refines {ring : SpscRing T C} (valid : ring.Valid) (value : T) :
    (ring.tryPush value).2.Valid ∧ answer C.size ring.held (.push value) =
      (.pushed (ring.tryPush value).1, (ring.tryPush value).2.held) := by
  by_cases room : ring.count < C.size
  · have notFull : ¬ full C ring.tail ring.head = true := by
      rw [full_iff]
      exact Nat.not_le.mpr room
    have written : (ring.writeSlot ring.tail value).count < C.size := room
    have grown := count_storeTail written
    have grownHeld := held_storeTail written
    rw [held_writeSlot room] at grownHeld
    simp only [tryPush, notFull, answer, length_held, room, ↓reduceIte]
    refine ⟨?_, ?_⟩
    · exact grown.trans_le room
    · exact congrArg (Prod.mk _) (by simpa [writeSlot] using grownHeld.symm)
  · have isFull : full C ring.tail ring.head = true := (full_iff _ _).mpr (Nat.not_lt.mp room)
    simp only [tryPush, isFull, ↓reduceIte, answer, length_held, room]
    exact ⟨valid, trivial⟩

/-- A pop answers as the bounded queue does and keeps the cursors in range. -/
theorem tryPop_refines {ring : SpscRing T C} (valid : ring.Valid) :
    ring.tryPop.2.Valid ∧ answer C.size ring.held .pop =
      (.popped ring.tryPop.1, ring.tryPop.2.held) := by
  by_cases empty : ring.head = ring.tail
  · have none : ring.held = [] := by
      rw [← List.length_eq_zero_iff, length_held, ring.head_eq_tail.mp empty]
    simp only [tryPop, empty, ↓reduceIte, none, answer]
    exact ⟨valid, trivial⟩
  · have nonempty : 0 < ring.count :=
      Nat.pos_of_ne_zero fun none => empty (ring.head_eq_tail.mpr none)
    simp only [tryPop, empty, ↓reduceIte, held_storeHead nonempty, answer, and_true]
    have shrunk := congrArg List.length (held_storeHead nonempty)
    simp only [List.length_cons, length_held] at shrunk
    unfold Valid at valid ⊢
    omega

/-- A call of either member function. -/
def call (ring : SpscRing T C) : Request T → Reply T × SpscRing T C
  | .push value => ((.pushed (ring.tryPush value).1), (ring.tryPush value).2)
  | .pop => ((.popped ring.tryPop.1), ring.tryPop.2)

/-- Calls one after another. -/
def session (ring : SpscRing T C) : List (Request T) → List (Reply T) × SpscRing T C
  | [] => ([], ring)
  | request :: rest =>
    let first := ring.call request
    let later := first.2.session rest
    (first.1 :: later.1, later.2)

theorem call_refines {ring : SpscRing T C} (valid : ring.Valid) (request : Request T) :
    (ring.call request).2.Valid ∧ answer C.size ring.held request =
      ((ring.call request).1, (ring.call request).2.held) := by
  cases request with
  | push value => exact tryPush_refines valid value
  | pop => exact tryPop_refines valid

/-- Calls one after another answer as the queue does. -/
theorem session_refines {ring : SpscRing T C} (valid : ring.Valid) (requests : List (Request T)) :
    serve C.size ring.held requests =
      ((ring.session requests).1, (ring.session requests).2.held) := by
  induction requests generalizing ring with
  | nil => rfl
  | cons request rest ih =>
    obtain ⟨again, answered⟩ := call_refines valid request
    simp only [serve, session, answered, ih again]

/-- The ring as an implementation of the queue. -/
def fifo (T : Type) [Inhabited T] (C : Capacity) : Queue T where
  State := { ring : SpscRing T C // ring.Valid }
  new := ⟨SpscRing.new T C, new_valid⟩
  capacity := C.size
  held state := state.1.held
  tryPush state value :=
    ((state.1.tryPush value).1, ⟨(state.1.tryPush value).2, (tryPush_refines state.2 value).1⟩)
  tryPop state := (state.1.tryPop.1, ⟨state.1.tryPop.2, (tryPop_refines state.2).1⟩)
  new_held := SpscRing.new_held
  fits state := by
    rw [held, C.length_window]
    exact state.2
  push_refines state value := (tryPush_refines state.2 value).2
  pop_refines state := (tryPop_refines state.2).2

end SpscRing
end Ringio
