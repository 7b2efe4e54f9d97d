import Ringio.Cursor
import Ringio.ReleaseAcquire

/-! Plain cells handed from writers to readers and back, ticket by ticket. A
ticket's cell is its number modulo the size of the array; it is accessed twice a
lap, once to write and once to take. Whoever knows of the accesses before its own
is no race, and how many those are is read off the ticket. -/
namespace Ringio.SlotHandover
open ReleaseAcquire

variable {C : Capacity} {Loc Val T : Type}

/-- The cell of a ticket. -/
def slot (C : Capacity) (ticket : ℕ) : Fin C.size := C.index (.ofNat ticket)

theorem slot_eq_iff {i j : ℕ} : slot C i = slot C j ↔ i % C.size = j % C.size :=
  C.index_eq_iff i j

/-- This view holds the write of the ticket. -/
def KnowsWritten (view : View Loc (Fin C.size)) (ticket : ℕ) : Prop :=
  2 * (ticket / C.size) + 1 ≤ view (.inr (slot C ticket))

/-- This view holds the ticket's read too. -/
def KnowsTaken (view : View Loc (Fin C.size)) (ticket : ℕ) : Prop :=
  2 * (ticket / C.size) + 2 ≤ view (.inr (slot C ticket))

/-- What has been written and taken so far, as the cells show it. `turns` is the
order of the laps: no ticket is written before the earlier ones of its cell are
taken. -/
structure Ledger (m : Memory Loc (Fin C.size) Val T) (wrote : ℕ → Option T) (took : ℕ → Prop) :
    Prop where
  ordered : ∀ {j}, took j → wrote j ≠ none
  turns : ∀ {i j}, wrote j ≠ none → i < j → slot C i = slot C j → took i
  unwritten : ∀ {j}, wrote j = none → m.accesses (slot C j) ≤ 2 * (j / C.size)
  untaken : ∀ {j}, ¬ took j → m.accesses (slot C j) ≤ 2 * (j / C.size) + 1
  contents : ∀ {j value}, wrote j = some value → ¬ took j → m.contents (slot C j) = value

variable {m : Memory Loc (Fin C.size) Val T} {wrote : ℕ → Option T} {took : ℕ → Prop}
  {view view' : View Loc (Fin C.size)} {i j : ℕ}

theorem KnowsWritten.mono (more : view ≤ view') (knows : KnowsWritten view j) :
    KnowsWritten view' j :=
  Nat.le_trans knows (more _)

theorem KnowsTaken.mono (more : view ≤ view') (knows : KnowsTaken view j) : KnowsTaken view' j :=
  Nat.le_trans knows (more _)

/-- A later ticket of the cell is at least a lap later. -/
theorem next_lap (later : i < j) (same : slot C i = slot C j) : i / C.size + 1 ≤ j / C.size := by
  have congruent := slot_eq_iff.mp same
  have before := Nat.div_add_mod i C.size
  have after := Nat.div_add_mod j C.size
  by_contra close
  have small : C.size * (j / C.size) ≤ C.size * (i / C.size) :=
    Nat.mul_le_mul_left _ (by omega)
  omega

theorem slot_sub (lap : C.size ≤ j) : slot C (j - C.size) = slot C j :=
  slot_eq_iff.mpr (Nat.mod_eq_sub_mod lap).symm

theorem lap_sub (lap : C.size ≤ j) : (j - C.size) / C.size + 1 = j / C.size :=
  (Nat.div_eq_sub_div C.size_pos lap).symm

/-- Nothing has been written or taken. -/
theorem Ledger.start {Loc Val : Type} {initial : Loc → Val} {contents : Fin C.size → T} :
    Ledger (Memory.start initial contents) (fun _ => none) (fun _ => False) where
  ordered := False.elim
  turns written := (written rfl).elim
  unwritten _ := Nat.zero_le _
  untaken _ := Nat.zero_le _
  contents := nofun

/-- Writes of atomic locations leave the ledger alone. -/
theorem Ledger.append [DecidableEq Loc] (ledger : Ledger m wrote took) (loc : Loc)
    (write : Write Loc (Fin C.size) Val) : Ledger (m.append loc write) wrote took where
  ordered := ledger.ordered
  turns := ledger.turns
  unwritten := ledger.unwritten
  untaken := ledger.untaken
  contents := ledger.contents

/-- A writer that knows the cell was taken a lap ago knows of every access. -/
theorem Ledger.write_ordered (ledger : Ledger m wrote took) (known : Known m view)
    (fresh : wrote j = none) (free : C.size ≤ j → KnowsTaken view (j - C.size)) :
    view (.inr (slot C j)) = m.accesses (slot C j) ∧
      2 * (j / C.size) ≤ m.accesses (slot C j) := by
  have most := ledger.unwritten fresh
  have some := known.accesses (slot C j)
  have least : 2 * (j / C.size) ≤ view (.inr (slot C j)) := by
    by_cases lap : C.size ≤ j
    · have taken := free lap
      have before := lap_sub lap
      unfold KnowsTaken at taken
      rw [slot_sub lap] at taken
      omega
    · rw [Nat.div_eq_of_lt (Nat.not_le.mp lap)]
      exact Nat.zero_le _
  omega

/-- A reader that knows of the write knows of every access. -/
theorem Ledger.read_ordered (ledger : Ledger m wrote took) (known : Known m view)
    (left : ¬ took j) (written : KnowsWritten view j) :
    view (.inr (slot C j)) = m.accesses (slot C j) := by
  have most := ledger.untaken left
  have some := known.accesses (slot C j)
  unfold KnowsWritten at written
  omega

/-- The write of a ticket whose turn it is. -/
theorem Ledger.write (ledger : Ledger m wrote took) (value : T) (fresh : wrote j = none)
    (turn : ∀ i < j, slot C i = slot C j → took i) :
    Ledger { m with
        accesses := Function.update m.accesses (slot C j) (m.accesses (slot C j) + 1)
        contents := Function.update m.contents (slot C j) value }
      (Function.update wrote j (some value)) took := by
  have kept {k : ℕ} (apart : k ≠ j) : Function.update wrote j (some value) k = wrote k :=
    Function.update_of_ne apart _ _
  have written {k : ℕ} (done : took k) : k ≠ j := fun same => by
    subst same
    exact ledger.ordered done fresh
  have last {k : ℕ} (made : wrote k ≠ none) : ¬ (j < k ∧ slot C j = slot C k) := fun later =>
    ledger.ordered (ledger.turns made later.1 later.2) fresh
  refine ⟨fun done => ?_, fun {i k} made earlier same => ?_, fun {k} unmade => ?_,
    fun {k} left => ?_, fun {k word} made left => ?_⟩
  · rw [kept (written done)]
    exact ledger.ordered done
  · by_cases mine : k = j
    · subst mine
      exact turn i earlier same
    · rw [kept mine] at made
      exact ledger.turns made earlier same
  · have apart : k ≠ j := fun same => by
      subst same
      simp at unmade
    rw [kept apart] at unmade
    by_cases same : slot C k = slot C j
    · have most := ledger.unwritten fresh
      have later : j < k := by
        refine lt_of_le_of_ne (Nat.not_lt.mp fun earlier => ?_) apart.symm
        exact ledger.ordered (turn k earlier same) unmade
      have lap := next_lap later same.symm
      simp only [same, Function.update_self]
      omega
    · simp only [Function.update_of_ne same]
      exact ledger.unwritten unmade
  · by_cases same : slot C k = slot C j
    · have most := ledger.unwritten fresh
      have later : j ≤ k := Nat.not_lt.mp fun earlier => left (turn k earlier same)
      have lap : j / C.size ≤ k / C.size := Nat.div_le_div_right later
      simp only [same, Function.update_self]
      omega
    · simp only [Function.update_of_ne same]
      exact ledger.untaken left
  · by_cases mine : k = j
    · subst mine
      simp only [Function.update_self, Option.some.injEq] at made ⊢
      exact made
    · rw [kept mine] at made
      have elsewhere : slot C k ≠ slot C j := fun same => by
        rcases Nat.lt_or_gt_of_ne mine with earlier | later
        · exact left (turn k earlier same)
        · exact last (by rw [made]; simp) ⟨later, same.symm⟩
      simp only [Function.update_of_ne elsewhere]
      exact ledger.contents made left

/-- The read of a ticket that has been written and not taken. -/
theorem Ledger.read (ledger : Ledger m wrote took) (written : wrote j ≠ none) (left : ¬ took j) :
    Ledger { m with
        accesses := Function.update m.accesses (slot C j) (m.accesses (slot C j) + 1) }
      wrote (fun k => k = j ∨ took k) := by
  have later {k : ℕ} (apart : k ≠ j) (same : slot C k = slot C j) (notTaken : ¬ took k) :
      j < k := by
    refine lt_of_le_of_ne (Nat.not_lt.mp fun earlier => ?_) apart.symm
    exact notTaken (ledger.turns written earlier same)
  have most := ledger.untaken left
  refine ⟨?_, fun made earlier same => .inr (ledger.turns made earlier same), fun {k} unmade => ?_,
    fun {k} notTaken => ?_, fun made notTaken =>
      ledger.contents made fun done => notTaken (.inr done)⟩
  · rintro k (rfl | done)
    · exact written
    · exact ledger.ordered done
  · have apart : k ≠ j := fun same => written (same ▸ unmade)
    by_cases same : slot C k = slot C j
    · have lap := next_lap (later apart same fun done => ledger.ordered done unmade) same.symm
      simp only [same, Function.update_self]
      omega
    · simp only [Function.update_of_ne same]
      exact ledger.unwritten unmade
  · obtain ⟨apart, notTaken⟩ := not_or.mp notTaken
    by_cases same : slot C k = slot C j
    · have lap := next_lap (later apart same notTaken) same.symm
      simp only [same, Function.update_self]
      omega
    · simp only [Function.update_of_ne same]
      exact ledger.untaken notTaken

end Ringio.SlotHandover
