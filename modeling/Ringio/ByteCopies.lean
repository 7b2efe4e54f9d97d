import Mathlib.Data.Set.Defs
import Mathlib.Data.Nat.Notation

/-! Copies between stretches of arrays. Two copies commute when neither touches
what the other reads or writes. Arrays may be laid out in other arrays; a copy
within bounds is then the same copy in both. -/
namespace Ringio.ByteCopies

variable {Obj Host β : Type} [DecidableEq Obj] [DecidableEq Host]

/-- Where a stretch starts: an array and a position in it. -/
structure Place (Obj : Type) where
  obj : Obj
  start : ℕ
  deriving DecidableEq

/-- This position of this array is among the first `n` from the place on. -/
def Place.Covers (place : Place Obj) (n : ℕ) (obj : Obj) (j : ℕ) : Prop :=
  obj = place.obj ∧ place.start ≤ j ∧ j < place.start + n

instance (place : Place Obj) (n : ℕ) (obj : Obj) (j : ℕ) : Decidable (place.Covers n obj j) :=
  inferInstanceAs (Decidable (_ ∧ _ ∧ _))

/-- Two stretches have nothing in common. -/
def Place.Apart (a : Place Obj) (n : ℕ) (b : Place Obj) (m : ℕ) : Prop :=
  ∀ obj j, a.Covers n obj j → ¬ b.Covers m obj j

/-- The arrays after new contents for one stretch. -/
def fill (bytes : Obj → ℕ → β) (dst : Place Obj) (n : ℕ) (values : ℕ → β) : Obj → ℕ → β :=
  fun obj j => if dst.Covers n obj j then values (j - dst.start) else bytes obj j

/-- The arrays after a copy. -/
def copy (bytes : Obj → ℕ → β) (dst src : Place Obj) (n : ℕ) : Obj → ℕ → β :=
  fill bytes dst n fun k => bytes src.obj (src.start + k)

variable {bytes : Obj → ℕ → β} {dst src dst' src' : Place Obj} {n m k : ℕ} {values values' : ℕ → β}

theorem fill_inside (bytes : Obj → ℕ → β) (dst : Place Obj) (values : ℕ → β) (inside : k < n) :
    fill bytes dst n values dst.obj (dst.start + k) = values k := by
  rw [fill, if_pos ⟨rfl, Nat.le_add_right _ _, Nat.add_lt_add_left inside _⟩,
    Nat.add_sub_cancel_left]

theorem fill_outside {obj : Obj} {j : ℕ} (outside : ¬ dst.Covers n obj j) :
    fill bytes dst n values obj j = bytes obj j := if_neg outside

theorem fill_elsewhere {obj : Obj} {j : ℕ} (other : obj ≠ dst.obj) :
    fill bytes dst n values obj j = bytes obj j :=
  fill_outside fun covered => other covered.1

omit [DecidableEq Obj] in
theorem Place.Apart.symm (apart : dst.Apart n src m) : src.Apart m dst n :=
  fun obj j covered covered' => apart obj j covered' covered

omit [DecidableEq Obj] in
theorem Place.Apart.of_obj (apart : dst.obj ≠ src.obj) : dst.Apart n src m :=
  fun _ _ covered covered' => apart (covered.1.symm.trans covered'.1)

/-- What a stretch holds after the contents of another have changed. -/
theorem fill_apart (apart : dst.Apart n src m) (inside : k < m) :
    fill bytes dst n values src.obj (src.start + k) = bytes src.obj (src.start + k) :=
  fill_outside fun covered =>
    apart _ _ covered ⟨rfl, Nat.le_add_right _ _, Nat.add_lt_add_left inside _⟩

/-- Contents matter only where the stretch is. -/
theorem fill_congr (same : ∀ k < n, values k = values' k) :
    fill bytes dst n values = fill bytes dst n values' := by
  funext obj j
  unfold fill
  split
  · rename_i covered
    exact same _ (by have := covered.2; omega)
  · rfl

theorem fill_comm (apart : dst.Apart n dst' m) :
    fill (fill bytes dst n values) dst' m values' = fill (fill bytes dst' m values') dst n values := by
  funext obj j
  by_cases here : dst.Covers n obj j
  · have there := apart obj j here
    simp only [fill, if_pos here, if_neg there]
  · simp only [fill, if_neg here]

/-- Copies that keep off each other commute. -/
theorem copy_comm (writes : dst.Apart n dst' m) (reads : dst.Apart n src' m)
    (reads' : dst'.Apart m src n) :
    copy (copy bytes dst src n) dst' src' m = copy (copy bytes dst' src' m) dst src n := by
  have first : copy (copy bytes dst src n) dst' src' m =
      fill (copy bytes dst src n) dst' m fun k => bytes src'.obj (src'.start + k) :=
    fill_congr fun k inside => fill_apart reads inside
  have second : copy (copy bytes dst' src' m) dst src n =
      fill (copy bytes dst' src' m) dst n fun k => bytes src.obj (src.start + k) :=
    fill_congr fun k inside => fill_apart reads' inside
  rw [first, second]
  exact fill_comm writes

/-! ## Arrays inside arrays -/

/-- Where each array is laid out and which of its positions are; no position is
laid out twice. -/
structure Layout (Obj Host : Type) where
  place : Obj → Place Host
  within : Obj → Set ℕ
  injective : ∀ {a b : Obj} {j k : ℕ}, j ∈ within a → k ∈ within b →
    (place a).obj = (place b).obj → (place a).start + j = (place b).start + k → a = b ∧ j = k

namespace Layout
variable {layout : Layout Obj Host} {inner : Obj → ℕ → β} {outer : Host → ℕ → β}

/-- Where a stretch ends up. -/
def locate (layout : Layout Obj Host) (at_ : Place Obj) : Place Host :=
  ⟨(layout.place at_.obj).obj, (layout.place at_.obj).start + at_.start⟩

/-- The first `n` positions from a place on are laid out. -/
def Fits (layout : Layout Obj Host) (at_ : Place Obj) (n : ℕ) : Prop :=
  ∀ k < n, at_.start + k ∈ layout.within at_.obj

/-- The arrays hold what their layout holds. -/
def Agree (layout : Layout Obj Host) (inner : Obj → ℕ → β) (outer : Host → ℕ → β) : Prop :=
  ∀ obj, ∀ j ∈ layout.within obj,
    inner obj j = outer (layout.place obj).obj ((layout.place obj).start + j)

omit [DecidableEq Obj] [DecidableEq Host] in
theorem locate_covers {at_ : Place Obj} (fits : layout.Fits at_ n) {obj : Obj} {j : ℕ}
    (inside : j ∈ layout.within obj) :
    (layout.locate at_).Covers n (layout.place obj).obj ((layout.place obj).start + j) ↔
      at_.Covers n obj j := by
  constructor
  · rintro ⟨here, from_, below⟩
    simp only [locate] at here from_ below
    have laid := fits ((layout.place obj).start + j - (layout.place at_.obj).start - at_.start)
      (by omega)
    obtain ⟨rfl, same⟩ := layout.injective inside laid here (by omega)
    exact ⟨rfl, by omega, by omega⟩
  · rintro ⟨rfl, from_, below⟩
    exact ⟨rfl, by simp only [locate]; omega, by simp only [locate]; omega⟩

/-- New contents within bounds go to the same positions in both. -/
theorem Agree.fill {at_ : Place Obj} (agree : layout.Agree inner outer) (fits : layout.Fits at_ n)
    (same : ∀ k < n, values k = values' k) :
    layout.Agree (fill inner at_ n values) (fill outer (layout.locate at_) n values') := by
  intro obj j inside
  by_cases covered : at_.Covers n obj j
  · have covered' := (locate_covers fits inside).mpr covered
    rw [ByteCopies.fill, if_pos covered, ByteCopies.fill, if_pos covered']
    obtain ⟨rfl, from_, below⟩ := covered
    rw [same _ (by omega)]
    refine congrArg values' ?_
    simp only [locate]
    omega
  · rw [fill_outside covered, fill_outside fun covered' =>
      covered ((locate_covers fits inside).mp covered')]
    exact agree obj j inside

/-- So does a copy. -/
theorem Agree.copy (agree : layout.Agree inner outer) (into : layout.Fits dst n)
    (from_ : layout.Fits src n) :
    layout.Agree (copy inner dst src n) (copy outer (layout.locate dst) (layout.locate src) n) :=
  agree.fill into fun k inside => by
    rw [agree _ _ (from_ k inside)]
    simp only [locate, Nat.add_assoc]

end Layout
end Ringio.ByteCopies
