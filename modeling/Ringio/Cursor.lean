import Mathlib.Data.Nat.ModEq
import Mathlib.Data.Int.ModEq
import Mathlib.Logic.Function.Basic

/-! Free-running 64-bit cursors into a power-of-two array. A cursor is the
remainder of an unbounded ticket number, so each lemma states what the machine
operation computes in terms of tickets and how far apart they may be. -/
namespace Ringio

/-- A nonzero array size with a single bit set, the condition
`(n & (n - 1)) == 0` in its own words. -/
structure Capacity where
  value : UInt64
  positive : value ≠ 0
  singleBit : value &&& (value - 1) = 0

namespace Capacity
variable (C : Capacity)

/-- The number of array elements. -/
def size : ℕ := C.value.toNat

theorem size_pos : 0 < C.size := by
  refine Nat.pos_of_ne_zero fun zero => C.positive ?_
  exact UInt64.toNat_inj.mp (by simpa [size] using zero)

theorem mask_toNat : (C.value - 1).toNat = C.size - 1 := by
  have bound := C.value.toNat_lt
  have positive := C.size_pos
  unfold size at positive ⊢
  rw [UInt64.toNat_sub]
  simp only [UInt64.toNat_one]
  omega

/-- Clearing the lowest set bit leaves nothing, so there is only one. -/
theorem size_pow : ∃ k < 64, C.size = 2 ^ k := by
  have cleared : C.size &&& (C.size - 1) = 0 := by
    rw [← C.mask_toNat, size, ← UInt64.toNat_and, C.singleBit]
    rfl
  obtain ⟨k, power⟩ := (Nat.and_sub_one_eq_zero_iff_isPowerOfTwo C.size_pos.ne').mp cleared
  refine ⟨k, ?_, power⟩
  have bound : C.size < 2 ^ 64 := C.value.toNat_lt
  rw [power] at bound
  exact (Nat.pow_lt_pow_iff_right (by decide)).mp bound

theorem size_dvd : C.size ∣ 2 ^ 64 := by
  obtain ⟨k, small, power⟩ := C.size_pow
  rw [power]
  exact Nat.pow_dvd_pow 2 small.le

theorem size_le : C.size ≤ 2 ^ 63 := by
  obtain ⟨k, small, power⟩ := C.size_pow
  rw [power]
  exact Nat.pow_le_pow_right (by decide) (by omega)

/-- Masking a cursor is reduction modulo the size. -/
theorem and_mask (pos : UInt64) : (pos &&& (C.value - 1)).toNat = pos.toNat % C.size := by
  obtain ⟨k, _, power⟩ := C.size_pow
  rw [UInt64.toNat_and, C.mask_toNat, power, Nat.and_two_pow_sub_one_eq_mod]

/-- The array element a cursor selects, `pos & kMask`. -/
def index (pos : UInt64) : Fin C.size :=
  ⟨(pos &&& (C.value - 1)).toNat, by rw [C.and_mask]; exact Nat.mod_lt _ C.size_pos⟩

/-- A ticket's element does not depend on how often the cursor has wrapped. -/
@[simp] theorem index_ofNat (ticket : ℕ) : (C.index (.ofNat ticket)).val = ticket % C.size := by
  simp only [index, C.and_mask, UInt64.toNat_ofNat']
  exact Nat.mod_mod_of_dvd _ C.size_dvd

theorem index_eq_iff (a b : ℕ) :
    C.index (.ofNat a) = C.index (.ofNat b) ↔ a % C.size = b % C.size := by
  rw [Fin.ext_iff, C.index_ofNat, C.index_ofNat]

/-- The elements of a run of consecutive cursors, oldest first. -/
def window {T : Type} (cells : Fin C.size → T) (first : UInt64) (count : ℕ) : List T :=
  (List.range count).map fun offset => cells (C.index (first + .ofNat offset))

@[simp] theorem length_window {T : Type} (cells : Fin C.size → T) (first : UInt64) (count : ℕ) :
    (C.window cells first count).length = count := by
  simp [window]

/-- Cursors less than a lap apart select different elements. -/
theorem index_add_ne (first : UInt64) {a b : ℕ} (ordered : a < b) (near : b < a + C.size) :
    C.index (first + .ofNat a) ≠ C.index (first + .ofNat b) := by
  rw [← UInt64.ofNat_toNat (x := first), ← UInt64.ofNat_add, ← UInt64.ofNat_add]
  intro same
  have congruent := (C.index_eq_iff _ _).mp same
  have divides := (Nat.modEq_iff_dvd' (by omega)).mp congruent
  have small := Nat.le_of_dvd (by omega) divides
  omega

theorem window_succ {T : Type} (cells : Fin C.size → T) (first : UInt64) (count : ℕ) :
    C.window cells first (count + 1) =
      C.window cells first count ++ [cells (C.index (first + .ofNat count))] := by
  simp [window, List.range_succ]

/-- Writing the element after the run leaves the run alone. -/
theorem window_update {T : Type} (cells : Fin C.size → T) (first : UInt64) {count : ℕ} (value : T)
    (room : count < C.size) :
    C.window (Function.update cells (C.index (first + .ofNat count)) value) first count =
      C.window cells first count := by
  apply List.map_congr_left
  intro offset member
  have before := List.mem_range.mp member
  exact Function.update_of_ne (C.index_add_ne first before (by omega)) _ _

/-- The oldest element comes first, and the next cursor starts the rest. -/
theorem window_cons {T : Type} (cells : Fin C.size → T) (first : UInt64) (count : ℕ) :
    C.window cells first (count + 1) =
      cells (C.index first) :: C.window cells (first + 1) count := by
  have shift (offset : ℕ) : first + .ofNat (offset + 1) = first + 1 + .ofNat offset := by
    rw [UInt64.ofNat_add, UInt64.add_comm (.ofNat offset), ← UInt64.add_assoc]
    rfl
  simp only [window, List.range_succ_eq_map, List.map_cons, List.map_map, Function.comp_def,
    shift]
  simp

end Capacity

namespace Cursor

/-- Tickets of one element less than a lap apart are the same. -/
theorem eq_of_mod {a b n : ℕ} (congruent : a % n = b % n) (ordered : b ≤ a) (near : a < b + n) :
    a = b := by
  have divides := (Nat.modEq_iff_dvd' ordered).mp congruent.symm
  have small := Nat.eq_zero_of_dvd_of_lt divides (by omega)
  omega

/-- Tickets of one element in the same lap are the same. -/
theorem eq_of_mod_window {a b n base : ℕ} (congruent : a % n = b % n) (low : base ≤ a)
    (high : a < base + n) (low' : base ≤ b) (high' : b < base + n) : a = b := by
  rcases le_total b a with ordered | ordered
  · exact eq_of_mod congruent ordered (by omega)
  · exact (eq_of_mod congruent.symm ordered (by omega)).symm

/-- With two elements or more, consecutive tickets select different ones. -/
theorem succ_mod_ne {n : ℕ} (several : 2 ≤ n) (a : ℕ) : (a + 1) % n ≠ a % n := by
  intro congruent
  have same := eq_of_mod congruent (by omega) (by omega)
  omega

/-- Tickets less than a full wrap apart have distinct cursors. -/
theorem ofNat_inj {a b : ℕ} (above : a < b + 2 ^ 64) (below : b < a + 2 ^ 64) :
    UInt64.ofNat a = UInt64.ofNat b ↔ a = b := by
  rw [UInt64.ofNat_eq_iff_mod_eq_toNat, UInt64.toNat_ofNat']
  omega

/-- Unsigned subtraction recovers the distance between two cursors. -/
theorem toNat_sub {low high : ℕ} (ordered : low ≤ high) (near : high < low + 2 ^ 64) :
    (UInt64.ofNat high - UInt64.ofNat low).toNat = high - low := by
  rw [UInt64.toNat_sub, UInt64.toNat_ofNat', UInt64.toNat_ofNat']
  omega

theorem ofNat_add_one (ticket : ℕ) : UInt64.ofNat ticket + 1 = UInt64.ofNat (ticket + 1) :=
  (UInt64.ofNat_add ticket 1).symm

/-- The two's-complement difference of two cursors read as signed numbers. -/
def signedDiff (a b : UInt64) : Int64 := a.toInt64 - b.toInt64

theorem signedDiff_eq_zero (a b : UInt64) : signedDiff a b = 0 ↔ a = b := by
  unfold signedDiff
  rw [Int64.sub_eq_iff_eq_add, Int64.zero_add]
  exact ⟨fun same => congrArg Int64.toUInt64 same, fun same => congrArg UInt64.toInt64 same⟩

/-- The signed difference is the ticket distance while that fits 64 bits. -/
theorem signedDiff_toInt {a b : ℕ} (lower : b ≤ a + 2 ^ 63) (upper : a < b + 2 ^ 63) :
    (signedDiff (.ofNat a) (.ofNat b)).toInt = (a : ℤ) - b := by
  have read (n : ℕ) : (UInt64.ofNat n).toInt64.toInt = (n : ℤ).bmod (2 ^ 64) :=
    BitVec.toInt_ofNat n
  rw [signedDiff, Int64.toInt_sub, read, read, Int.sub_bmod_bmod, Int.bmod_sub_bmod]
  exact Int.bmod_eq_of_le (by omega) (by omega)

/-- Only the distance matters, not where the cursors stand. -/
theorem signedDiff_add {a b : ℕ} (base : UInt64) (lower : b ≤ a + 2 ^ 63) (upper : a < b + 2 ^ 63) :
    (signedDiff (base + .ofNat a) (base + .ofNat b)).toInt = (a : ℤ) - b := by
  rw [← UInt64.ofNat_toNat (x := base), ← UInt64.ofNat_add, ← UInt64.ofNat_add,
    signedDiff_toInt (by omega) (by omega)]
  push_cast
  omega

/-- Within that range its sign orders the tickets. -/
theorem signedDiff_neg {a b : ℕ} (lower : b ≤ a + 2 ^ 63) (upper : a < b + 2 ^ 63) :
    signedDiff (.ofNat a) (.ofNat b) < 0 ↔ a < b := by
  rw [Int64.lt_iff_toInt_lt, signedDiff_toInt lower upper, Int64.toInt_zero]
  omega

end Cursor
end Ringio
