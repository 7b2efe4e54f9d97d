import Mathlib.Order.Lattice
import Mathlib.Order.BoundedOrder.Basic
import Mathlib.Order.Lattice.Nat
import Mathlib.Logic.Function.Basic
import Mathlib.Data.List.Basic

/-! Memory with release and acquire operations. An atomic location keeps every
write made to it, in order, and a thread knows of some of them: a load takes any
write that is not older than the last one the thread knows of, so threads read
old values. A release write passes on what its thread knows, an acquire load
takes it over. A plain cell is for one thread at a time: an access by a thread
that does not know of every earlier one is a fault. So is a plain store by a
thread that does not know of the last write, whose place in the order would be
open. Nothing here knows about rings or pools. -/
namespace Ringio.ReleaseAcquire

/-- The orders of a load. -/
inductive LoadOrder where
  | relaxed
  | acquire
  deriving DecidableEq

/-- The orders of a store. -/
inductive StoreOrder where
  | relaxed
  | release
  deriving DecidableEq

/-- What is known: of each location the number of its latest write, of each cell
how many accesses. -/
abbrev View (Loc Cell : Type) := Loc ⊕ Cell → ℕ

/-- A write and what it passes on. -/
structure Write (Loc Cell Val : Type) where
  value : Val
  view : View Loc Cell

/-- Two accesses to a cell that nothing orders, or a store whose place among the
writes nothing settles. -/
inductive Fault where
  | race
  | unordered
  deriving DecidableEq

/-- The writes of every location, oldest first; what the cells hold and how often
they have been accessed; and the faults so far. -/
structure Memory (Loc Cell Val Word : Type) where
  writes : Loc → List (Write Loc Cell Val)
  contents : Cell → Word
  accesses : Cell → ℕ
  faults : List Fault

variable {Loc Cell Val Word : Type} [DecidableEq Loc] [DecidableEq Cell]

namespace View

/-- The view of a thread that has come to know of a write. -/
def see (view : View Loc Cell) (loc : Loc) (number : ℕ) : View Loc Cell :=
  Function.update view (.inl loc) number

/-- What a load takes over from the write it reads. -/
def take (view : View Loc Cell) (order : LoadOrder) (write : Write Loc Cell Val) :
    View Loc Cell :=
  match order with
  | .relaxed => view
  | .acquire => view ⊔ write.view

/-- What a store passes on of its thread's view; its own number always. -/
def give (view : View Loc Cell) (order : StoreOrder) (loc : Loc) (number : ℕ) : View Loc Cell :=
  match order with
  | .relaxed => see (fun _ => 0) loc number
  | .release => view

end View

namespace Memory

/-- No location has been written since the start, no cell accessed. -/
def start (initial : Loc → Val) (contents : Cell → Word) : Memory Loc Cell Val Word where
  writes := fun loc => [⟨initial loc, fun _ => 0⟩]
  contents := contents
  accesses := fun _ => 0
  faults := []

/-- A load of the write with this number, unless the thread knows of a later one. -/
def load (m : Memory Loc Cell Val Word) (view : View Loc Cell) (order : LoadOrder) (loc : Loc)
    (number : ℕ) : Option (Val × View Loc Cell) :=
  if view (.inl loc) ≤ number then
    (m.writes loc)[number]?.map fun write => (write.value, (view.see loc number).take order write)
  else none

/-- One more write of a location. -/
def append (m : Memory Loc Cell Val Word) (loc : Loc) (write : Write Loc Cell Val) :
    Memory Loc Cell Val Word :=
  { m with writes := Function.update m.writes loc (m.writes loc ++ [write]) }

/-- A store. -/
def store (m : Memory Loc Cell Val Word) (view : View Loc Cell) (order : StoreOrder) (loc : Loc)
    (value : Val) : Memory Loc Cell Val Word × View Loc Cell :=
  let number := (m.writes loc).length
  let view' := view.see loc number
  let m' := m.append loc ⟨value, view'.give order loc number⟩
  ({ m' with
    faults := if view (.inl loc) + 1 = number then m.faults else m.faults ++ [.unordered] }, view')

/-- The value written last. -/
def latest (m : Memory Loc Cell Val Word) (loc : Loc) : Option Val :=
  (m.writes loc).getLast?.map Write.value

/-- A read-modify-write: it reads the last write and comes right after it, and
what that write passes on, it passes on too. -/
def exchange (m : Memory Loc Cell Val Word) (view : View Loc Cell) (load : LoadOrder)
    (store : StoreOrder) (loc : Loc) (value : Val) :
    Option (Memory Loc Cell Val Word × View Loc Cell) :=
  (m.writes loc).getLast?.map fun last =>
    let number := (m.writes loc).length
    let view' := (view.see loc number).take load last
    (m.append loc ⟨value, last.view ⊔ view'.give store loc number⟩, view')

/-- An access to a cell. -/
def access (m : Memory Loc Cell Val Word) (view : View Loc Cell) (cell : Cell) :
    Memory Loc Cell Val Word × View Loc Cell :=
  ({ m with
      accesses := Function.update m.accesses cell (m.accesses cell + 1)
      faults := if view (.inr cell) = m.accesses cell then m.faults else m.faults ++ [.race] },
    Function.update view (.inr cell) (m.accesses cell + 1))

/-- A plain write. -/
def write (m : Memory Loc Cell Val Word) (view : View Loc Cell) (cell : Cell) (word : Word) :
    Memory Loc Cell Val Word × View Loc Cell :=
  let done := m.access view cell
  ({ done.1 with contents := Function.update m.contents cell word }, done.2)

end Memory

/-! ## What each operation does -/

section
variable {m m' : Memory Loc Cell Val Word} {view view' : View Loc Cell} {loc : Loc} {cell : Cell}

namespace View

@[simp] theorem see_self (view : View Loc Cell) (loc : Loc) (number : ℕ) :
    view.see loc number (.inl loc) = number := Function.update_self ..

@[simp] theorem see_cell (view : View Loc Cell) (loc : Loc) (number : ℕ) (cell : Cell) :
    view.see loc number (.inr cell) = view (.inr cell) :=
  Function.update_of_ne (fun same => by cases same) _ _

theorem see_other (view : View Loc Cell) {loc other : Loc} (number : ℕ) (apart : other ≠ loc) :
    view.see loc number (.inl other) = view (.inl other) :=
  Function.update_of_ne (fun same => apart (Sum.inl.inj same)) _ _

/-- A thread that knows of the write already learns nothing. -/
theorem see_known {number : ℕ} (known : view (.inl loc) = number) : view.see loc number = view := by
  rw [see, ← known, Function.update_eq_self]

theorem le_see {number : ℕ} (recent : view (.inl loc) ≤ number) : view ≤ view.see loc number := by
  intro place
  by_cases same : place = .inl loc
  · subst same
    rwa [see_self]
  · rw [see, Function.update_of_ne same]

/-- A write that passes on its own number makes it known. -/
theorem see_sup {number : ℕ} (recent : view (.inl loc) ≤ number) (own : number ≤ view' (.inl loc)) :
    view.see loc number ⊔ view' = view ⊔ view' := by
  funext place
  by_cases same : place = .inl loc
  · subst same
    simp only [Pi.sup_apply, see_self]
    omega
  · simp only [Pi.sup_apply, see, Function.update_of_ne same]

omit [DecidableEq Loc] [DecidableEq Cell] in
/-- A load never makes its thread know less. -/
theorem le_take (view : View Loc Cell) (order : LoadOrder) (write : Write Loc Cell Val) :
    view ≤ view.take order write := by
  cases order with
  | relaxed => exact le_rfl
  | acquire => exact le_sup_left

omit [DecidableEq Loc] [DecidableEq Cell] in
theorem take_le (view : View Loc Cell) (order : LoadOrder) (write : Write Loc Cell Val) :
    view.take order write ≤ view ⊔ write.view := by
  cases order with
  | relaxed => exact le_sup_left
  | acquire => exact le_rfl

/-- A load learns of a cell only what both orders let through. -/
theorem take_give_cell {load : LoadOrder} {store : StoreOrder} {number : ℕ} {value : Val}
    (cell : Cell) (weak : ¬ (store = .release ∧ load = .acquire)) :
    view.take load ⟨value, view'.give store loc number⟩ (.inr cell) = view (.inr cell) := by
  cases load with
  | relaxed => rfl
  | acquire =>
    cases store with
    | release => exact (weak ⟨rfl, rfl⟩).elim
    | relaxed =>
      show max (view (.inr cell)) (see (fun _ => 0) loc number (.inr cell)) = _
      rw [see_cell, Nat.max_eq_left (Nat.zero_le _)]

end View

namespace Memory

/-- A load that succeeds read a write that is not older than the last one known. -/
theorem load_eq_some {order : LoadOrder} {number : ℕ} {value : Val}
    (loaded : m.load view order loc number = some (value, view')) :
    view (.inl loc) ≤ number ∧ ∃ write, (m.writes loc)[number]? = some write ∧
      value = write.value ∧ view' = (view.see loc number).take order write := by
  unfold load at loaded
  split at loaded
  · rename_i recent
    obtain ⟨write, found, same⟩ := Option.map_eq_some_iff.mp loaded
    cases same
    exact ⟨recent, write, found, rfl, rfl⟩
  · cases loaded

/-- A load never makes its thread know less. -/
theorem le_load {order : LoadOrder} {number : ℕ} {value : Val}
    (loaded : m.load view order loc number = some (value, view')) : view ≤ view' := by
  obtain ⟨recent, write, _, _, rfl⟩ := load_eq_some loaded
  exact (View.le_see recent).trans (View.le_take _ _ _)

omit [DecidableEq Cell] in
@[simp] theorem append_self (m : Memory Loc Cell Val Word) (loc : Loc)
    (write : Write Loc Cell Val) : (m.append loc write).writes loc = m.writes loc ++ [write] :=
  Function.update_self ..

omit [DecidableEq Cell] in
theorem append_other (m : Memory Loc Cell Val Word) {loc other : Loc}
    (write : Write Loc Cell Val) (apart : other ≠ loc) :
    (m.append loc write).writes other = m.writes other :=
  Function.update_of_ne apart _ _

omit [DecidableEq Cell] in
/-- Where a write stands after another has been added. -/
theorem append_getElem? {other : Loc} {number : ℕ} {write old : Write Loc Cell Val}
    (found : ((m.append loc write).writes other)[number]? = some old) :
    (m.writes other)[number]? = some old ∨
      other = loc ∧ number = (m.writes loc).length ∧ old = write := by
  by_cases same : other = loc
  · subst same
    rw [append_self, List.getElem?_append] at found
    split at found
    · exact .inl found
    · rename_i beyond
      rw [List.getElem?_singleton] at found
      split at found
      · exact .inr ⟨rfl, by omega, (Option.some.inj found).symm⟩
      · cases found
  · rw [append_other _ _ same] at found
    exact .inl found

/-- A store by a thread that knows of the last write has its place. -/
theorem store_settled (order : StoreOrder) (value : Val)
    (settled : view (.inl loc) + 1 = (m.writes loc).length) :
    m.store view order loc value =
      (m.append loc ⟨value, (view.see loc (m.writes loc).length).give order loc
        (m.writes loc).length⟩, view.see loc (m.writes loc).length) := by
  simp only [store, if_pos settled]
  rfl

/-- A read-modify-write adds one write, behind the one it read. -/
theorem exchange_eq_some {load : LoadOrder} {store : StoreOrder} {value : Val}
    (done : m.exchange view load store loc value = some (m', view')) :
    ∃ last, (m.writes loc).getLast? = some last ∧
      view' = (view.see loc (m.writes loc).length).take load last ∧
      m' = m.append loc ⟨value, last.view ⊔ view'.give store loc (m.writes loc).length⟩ := by
  obtain ⟨last, found, same⟩ := Option.map_eq_some_iff.mp done
  cases same
  exact ⟨last, found, rfl, rfl⟩

/-- An access by a thread that knows of every earlier one is no race. -/
theorem access_ordered (ordered : view (.inr cell) = m.accesses cell) :
    m.access view cell =
      ({ m with accesses := Function.update m.accesses cell (m.accesses cell + 1) },
        Function.update view (.inr cell) (m.accesses cell + 1)) := by
  simp only [access, if_pos ordered]

theorem write_ordered (word : Word) (ordered : view (.inr cell) = m.accesses cell) :
    m.write view cell word =
      ({ m with
        accesses := Function.update m.accesses cell (m.accesses cell + 1)
        contents := Function.update m.contents cell word },
        Function.update view (.inr cell) (m.accesses cell + 1)) := by
  simp only [write, access_ordered ordered]

end Memory

/-! ## Knowledge is of things that have happened -/

/-- Every write and access known has been made. -/
structure Known (m : Memory Loc Cell Val Word) (view : View Loc Cell) : Prop where
  writes : ∀ loc, view (.inl loc) < (m.writes loc).length
  accesses : ∀ cell, view (.inr cell) ≤ m.accesses cell

/-- What any write passes on is known in this sense. -/
def Consistent (m : Memory Loc Cell Val Word) : Prop :=
  ∀ loc, ∀ write ∈ m.writes loc, Known m write.view

/-- Writes are only added behind the others, accesses only counted up. -/
structure Grows (m m' : Memory Loc Cell Val Word) : Prop where
  writes : ∀ loc, m.writes loc <+: m'.writes loc
  accesses : ∀ cell, m.accesses cell ≤ m'.accesses cell

omit [DecidableEq Loc] [DecidableEq Cell] in
theorem Grows.refl (m : Memory Loc Cell Val Word) : Grows m m :=
  ⟨fun _ => List.prefix_rfl, fun _ => le_rfl⟩

omit [DecidableEq Loc] [DecidableEq Cell] in
/-- At the start there is nothing to know. -/
theorem Known.start (initial : Loc → Val) (contents : Cell → Word) :
    Known (Memory.start initial contents) (fun _ => 0) :=
  ⟨fun _ => Nat.one_pos, fun _ => le_rfl⟩

omit [DecidableEq Loc] [DecidableEq Cell] in
theorem Consistent.start (initial : Loc → Val) (contents : Cell → Word) :
    Consistent (Memory.start initial contents) := by
  intro loc write member
  rw [List.mem_singleton.mp member]
  exact Known.start initial contents

omit [DecidableEq Loc] [DecidableEq Cell] in
/-- The only write there is at the start. -/
theorem Memory.start_getElem? {initial : Loc → Val} {contents : Cell → Word} {number : ℕ}
    {write : Write Loc Cell Val}
    (found : ((Memory.start initial contents).writes loc)[number]? = some write) :
    number = 0 ∧ write = ⟨initial loc, fun _ => 0⟩ := by
  obtain ⟨first, same⟩ := List.getElem?_eq_some_iff.mp found
  have least : number = 0 := Nat.lt_one_iff.mp first
  subst least
  exact ⟨rfl, same.symm⟩

omit [DecidableEq Loc] [DecidableEq Cell] in
theorem Known.mono (grows : Grows m m') (known : Known m view) : Known m' view where
  writes loc := (known.writes loc).trans_le (grows.writes loc).length_le
  accesses cell := (known.accesses cell).trans (grows.accesses cell)

omit [DecidableEq Loc] [DecidableEq Cell] in
theorem Known.sup (known : Known m view) (known' : Known m view') : Known m (view ⊔ view') where
  writes loc := max_lt (known.writes loc) (known'.writes loc)
  accesses cell := max_le (known.accesses cell) (known'.accesses cell)

omit [DecidableEq Loc] [DecidableEq Cell] in
theorem Known.of_le (known : Known m view') (less : view ≤ view') : Known m view where
  writes loc := (less _).trans_lt (known.writes loc)
  accesses cell := (less _).trans (known.accesses cell)

theorem Known.see (known : Known m view) {number : ℕ} (made : number < (m.writes loc).length) :
    Known m (view.see loc number) where
  writes other := by
    by_cases same : other = loc
    · subst same
      rw [View.see_self]
      exact made
    · rw [View.see_other _ _ same]
      exact known.writes other
  accesses cell := by
    rw [View.see_cell]
    exact known.accesses cell

/-- What a load takes over has happened. -/
theorem Known.load (consistent : Consistent m) (known : Known m view) {order : LoadOrder}
    {number : ℕ} {value : Val} (loaded : m.load view order loc number = some (value, view')) :
    Known m view' := by
  obtain ⟨_, write, found, _, rfl⟩ := Memory.load_eq_some loaded
  obtain ⟨made, same⟩ := List.getElem?_eq_some_iff.mp found
  have passed : Known m write.view := consistent loc write (same ▸ List.getElem_mem made)
  exact ((known.see made).sup passed).of_le (View.take_le _ _ _)

omit [DecidableEq Cell] in
theorem append_grows (m : Memory Loc Cell Val Word) (loc : Loc) (write : Write Loc Cell Val) :
    Grows m (m.append loc write) where
  writes other := by
    by_cases same : other = loc
    · subst same
      rw [Memory.append_self]
      exact List.prefix_append _ _
    · rw [Memory.append_other _ _ same]
  accesses _ := le_rfl

omit [DecidableEq Loc] in
theorem access_grows (m : Memory Loc Cell Val Word) (cell : Cell) (contents : Cell → Word) :
    Grows m { m with
      accesses := Function.update m.accesses cell (m.accesses cell + 1)
      contents := contents } where
  writes _ := List.prefix_rfl
  accesses other := by
    by_cases same : other = cell
    · subst same
      simp
    · simp [Function.update_of_ne same]

/-- A thread knows of its own access. -/
theorem Known.access (known : Known m view) (cell : Cell) (contents : Cell → Word) :
    Known
      { m with
        accesses := Function.update m.accesses cell (m.accesses cell + 1)
        contents := contents }
      (Function.update view (.inr cell) (m.accesses cell + 1)) where
  writes loc := by
    rw [Function.update_of_ne (fun same => by cases same)]
    exact known.writes loc
  accesses other := by
    by_cases same : other = cell
    · subst same
      simp
    · rw [Function.update_of_ne (fun equal => same (Sum.inr.inj equal))]
      simp only [Function.update_of_ne same]
      exact known.accesses other

theorem Known.le_access (known : Known m view) (cell : Cell) :
    view ≤ Function.update view (.inr cell) (m.accesses cell + 1) := by
  intro place
  by_cases same : place = .inr cell
  · subst same
    rw [Function.update_self]
    exact (known.accesses cell).trans (Nat.le_succ _)
  · rw [Function.update_of_ne same]

omit [DecidableEq Loc] [DecidableEq Cell] in
theorem Consistent.grow (consistent : Consistent m) (grows : Grows m m')
    (same : m'.writes = m.writes) : Consistent m' := fun loc write member =>
  (consistent loc write (same ▸ member)).mono grows

omit [DecidableEq Cell] in
theorem Consistent.append (consistent : Consistent m) {write : Write Loc Cell Val}
    (known : Known (m.append loc write) write.view) : Consistent (m.append loc write) := by
  intro other old member
  by_cases same : other = loc
  · subst same
    rw [Memory.append_self] at member
    rcases List.mem_append.mp member with before | now
    · exact (consistent other old before).mono (append_grows m other write)
    · rw [List.mem_singleton.mp now]
      exact known
  · rw [Memory.append_other _ _ same] at member
    exact (consistent other old member).mono (append_grows m loc write)

/-- A thread that has appended a write knows of it. -/
theorem Known.append (known : Known m view) (loc : Loc) (write : Write Loc Cell Val) :
    Known (m.append loc write) (view.see loc (m.writes loc).length) :=
  (known.mono (append_grows m loc write)).see (by simp)

end

end Ringio.ReleaseAcquire
