import Ringio.MpmcOrders
import Ringio.SlotHandover

/-! The invariant of `MpmcRing` under release and acquire. The writes of a slot's
sequence are numbered from zero: an even one frees the slot for the push of its
lap, the odd one after it makes that push's value available. So the number of the
last write says whose turn the slot is, and a view that holds write `n` of a
sequence holds `n` accesses to the slot. -/
namespace Ringio.MpmcOrders
open ReleaseAcquire SlotHandover

variable {Thread T : Type} {C : Capacity}

/-- The parity of the sequence writes that make a slot available to this side. -/
def Side.phase : Side → ℕ
  | .push => 0
  | .pop => 1

/-- The number of the sequence write that makes a ticket available to this side. -/
def stage (C : Capacity) (side : Side) (ticket : ℕ) : ℕ := 2 * (ticket / C.size) + side.phase

/-- The number of the last write of a slot's sequence. -/
def turn (m : Memory (Location C) (Fin C.size) UInt64 T) (i : Fin C.size) : ℕ :=
  (m.writes (.sequence i)).length - 1

/-- The sequence with this number, without wraparound. -/
def sequenceAt (i : Fin C.size) (number : ℕ) : ℕ := i + number / 2 * C.size + number % 2

/-- Who knows of a sequence write knows of that many accesses to the slot. -/
def Informed (view : View (Location C) (Fin C.size)) : Prop :=
  ∀ i, view (.inl (.sequence i)) ≤ view (.inr i)

/-- The position a call has claimed and not handed on. -/
def Point.owns : Point → Option UInt64
  | .access pos | .storeSequence pos => some pos
  | _ => none

/-- The position is claimed, and the slot stands where that claim found it. -/
structure Owns (s : System Thread T C) (t : Thread) (side : Side) (pos : UInt64) : Prop where
  claimed : pos.toNat < s.claims side
  turn : turn s.memory (C.index pos) = stage C side pos.toNat
  seen : stage C side pos.toNat ≤ s.views t (.inl (.sequence (C.index pos)))
  later : ∀ entry ∈ s.log side, entry.thread = t → entry.ticket < pos.toNat

/-- After its copy, the slot holds a push's value and a pop holds the slot's. -/
def Copied (s : System Thread T C) (r : Running T) (pos : UInt64) : Prop :=
  match r.side with
  | .push => s.memory.contents (C.index pos) = r.value
  | .pop => ∃ entry ∈ s.log .push, entry.ticket = pos.toNat ∧ entry.value = r.value

/-- What a call's locals and its thread's view hold. -/
def RunningSound (s : System Thread T C) (t : Thread) (r : Running T) : Prop :=
  match r.point with
  | .loadPos => True
  | .loadSequence pos => pos.toNat ≤ s.claims r.side
  | .exchange pos => pos.toNat ≤ s.claims r.side ∧
    stage C r.side pos.toNat ≤ s.views t (.inl (.sequence (C.index pos)))
  | .access pos => Owns s t r.side pos
  | .storeSequence pos => Owns s t r.side pos ∧
    s.memory.accesses (C.index pos) = stage C r.side pos.toNat + 1 ∧
    s.views t (.inr (C.index pos)) = stage C r.side pos.toNat + 1 ∧ Copied s r pos

/-- The values the atomics have had. -/
structure Recorded (s : System Thread T C) : Prop where
  positive : ∀ loc, 0 < (s.memory.writes loc).length
  cursors : ∀ {side : Side} {k} {write : Write (Location C) (Fin C.size) UInt64},
    (s.memory.writes (side.cursor C))[k]? = some write → write.value = .ofNat k
  sequences : ∀ {i : Fin C.size} {n} {write : Write (Location C) (Fin C.size) UInt64},
    (s.memory.writes (.sequence i))[n]? = some write →
      write.value = .ofNat (sequenceAt i n) ∧ n ≤ write.view (.inl (.sequence i))

/-- What the views hold. -/
structure Viewed (s : System Thread T C) : Prop where
  consistent : Consistent s.memory
  known : ∀ t, Known s.memory (s.views t)
  informed : ∀ t, Informed (s.views t)
  passed : ∀ loc, ∀ write ∈ s.memory.writes loc, Informed write.view

/-- The turns of the slots and the claims agree. -/
structure Balanced (s : System Thread T C) : Prop where
  ready : ∀ side {j}, j < s.claims side → stage C side j ≤ turn s.memory (slot C j)
  claimed : ∀ side {j}, stage C side j < turn s.memory (slot C j) → j < s.claims side

/-- What the calls that returned have in common. -/
structure Logged (s : System Thread T C) : Prop where
  stored : ∀ {side}, ∀ entry ∈ s.log side,
    stage C side entry.ticket < turn s.memory (slot C entry.ticket)
  delivered : ∀ entry ∈ s.log .pop, ∃ origin ∈ s.log .push,
    origin.ticket = entry.ticket ∧ origin.value = entry.value
  distinct : ∀ side, (s.log side).Pairwise fun a b => a.ticket ≠ b.ticket
  ordered : ∀ side, (s.log side).Pairwise fun a b => a.thread = b.thread → a.ticket < b.ticket

/-- The threads inside calls and the slots they work on. -/
structure Occupied (s : System Thread T C) : Prop where
  running : ∀ {t r}, s.threads t = some r → RunningSound s t r
  apart : ∀ {t t' r r' pos}, s.threads t = some r → s.threads t' = some r' →
    r.point.owns = some pos → r'.point.owns = some pos → r.side = r'.side → t = t'
  rest : ∀ {i}, (∀ t r pos, s.threads t = some r → r.point = .storeSequence pos →
    C.index pos ≠ i) → s.memory.accesses i ≤ turn s.memory i
  published : ∀ {j}, turn s.memory (slot C j) = stage C .push j + 1 →
    ∃ entry ∈ s.log .push, entry.ticket = j ∧ entry.value = s.memory.contents (slot C j)

structure Sound (s : System Thread T C) : Prop where
  clean : s.memory.faults = []
  recorded : Recorded s
  viewed : Viewed s
  balanced : Balanced s
  logged : Logged s
  occupied : Occupied s

/-! ## Stages -/

theorem index_slot (pos : UInt64) : C.index pos = slot C pos.toNat := by
  rw [slot, UInt64.ofNat_toNat]

/-- One slot, one stage: one ticket and one side. -/
theorem stage_inj {side side' : Side} {i j : ℕ} (same : slot C i = slot C j)
    (equal : stage C side i = stage C side' j) : side = side' ∧ i = j := by
  have congruent := slot_eq_iff.mp same
  have first := Nat.div_add_mod i C.size
  have second := Nat.div_add_mod j C.size
  unfold stage at equal
  have phases : side = side' ∧ i / C.size = j / C.size := by
    cases side <;> cases side' <;> simp only [Side.phase] at equal <;> simp <;> omega
  obtain ⟨rfl, laps⟩ := phases
  rw [laps] at first
  exact ⟨rfl, by omega⟩

theorem sequenceAt_stage (side : Side) (j : ℕ) :
    sequenceAt (slot C j) (stage C side j) = j + side.phase := by
  have split := Nat.div_add_mod j C.size
  have half : stage C side j / 2 = j / C.size := by
    cases side <;> simp only [stage, Side.phase] <;> omega
  have parity : stage C side j % 2 = side.phase := by
    cases side <;> simp only [stage, Side.phase] <;> omega
  have place : (slot C j).val = j % C.size := C.index_ofNat j
  rw [sequenceAt, half, parity, place, Nat.mul_comm]
  omega

/-- Every number is the stage of some ticket of the slot. -/
theorem stage_cover (i : Fin C.size) (number : ℕ) :
    ∃ side j, slot C j = i ∧ stage C side j = number := by
  have lap : (i + number / 2 * C.size) / C.size = number / 2 := by
    rw [Nat.add_mul_div_right _ _ C.size_pos, Nat.div_eq_of_lt i.isLt, Nat.zero_add]
  have place : slot C (i + number / 2 * C.size) = i := by
    apply Fin.ext
    rw [slot, C.index_ofNat, Nat.add_mul_mod_self_right, Nat.mod_eq_of_lt i.isLt]
  refine ⟨if number % 2 = 0 then .push else .pop, i + number / 2 * C.size, place, ?_⟩
  unfold stage
  rw [lap]
  split <;> simp only [Side.phase] <;> omega

/-- The stage after a push is the pop's of the same ticket, the stage after a pop
the push's a lap later. -/
theorem stage_pop (j : ℕ) : stage C .pop j = stage C .push j + 1 := rfl

theorem stage_push_add (j : ℕ) : stage C .push (j + C.size) = stage C .pop j + 1 := by
  simp only [stage, Side.phase, Nat.add_div_right _ C.size_pos]
  omega

theorem slot_add (j : ℕ) : slot C (j + C.size) = slot C j :=
  slot_eq_iff.mpr (Nat.add_mod_right _ _)

theorem ready_ofNat (side : Side) (j : ℕ) : side.ready (.ofNat j) = .ofNat (j + side.phase) := by
  cases side with
  | push => rfl
  | pop => exact Cursor.ofNat_add_one j

/-- What a call stores is the next value of its slot's sequence. -/
theorem handed_ofNat (side : Side) (j : ℕ) :
    side.handed C (.ofNat j) = .ofNat (sequenceAt (slot C j) (stage C side j + 1)) := by
  cases side with
  | push =>
    rw [← stage_pop, sequenceAt_stage]
    exact Cursor.ofNat_add_one j
  | pop =>
    rw [← stage_push_add, ← slot_add, sequenceAt_stage]
    show UInt64.ofNat j + C.value = _
    rw [← UInt64.ofNat_toNat (x := C.value), ← UInt64.ofNat_add]
    rfl

/-- No ticket a slot has reached is near the end of the cursors' range. -/
theorem Balanced.reached {s : System Thread T C} (balanced : Balanced s)
    (small : ∀ side, s.claims side < 2 ^ 63) {side : Side} {j : ℕ}
    (reached : stage C side j ≤ turn s.memory (slot C j)) : j + side.phase < 2 ^ 64 := by
  have most := C.size_le
  cases side with
  | pop =>
    have claimed := balanced.claimed .push (Nat.lt_of_succ_le reached)
    have bound := small .push
    simp only [Side.phase]
    omega
  | push =>
    simp only [Side.phase]
    rcases Nat.lt_or_ge j C.size with first | lap
    · omega
    · obtain ⟨k, rfl⟩ := Nat.exists_eq_add_of_le' lap
      rw [stage_push_add, slot_add] at reached
      have claimed := balanced.claimed .pop (Nat.lt_of_succ_le reached)
      have bound := small .pop
      omega

/-- A sequence that equals the one a call waits for is the one of its turn. -/
theorem Balanced.ready_number {s : System Thread T C} (balanced : Balanced s)
    (several : 2 ≤ C.size) (small : ∀ side, s.claims side < 2 ^ 63) {side : Side} {pos : UInt64}
    {number : ℕ} (below : pos.toNat < 2 ^ 63) (made : number ≤ turn s.memory (C.index pos))
    (equal : .ofNat (sequenceAt (C.index pos) number) = side.ready pos) :
    number = stage C side pos.toNat := by
  obtain ⟨side', j, place, rfl⟩ := stage_cover (C.index pos) number
  rw [← place] at made
  have bound := balanced.reached small made
  rw [← place, sequenceAt_stage, ← UInt64.ofNat_toNat (x := pos), ready_ofNat] at equal
  have phase : side.phase ≤ 1 := by cases side <;> decide
  have phase' : side'.phase ≤ 1 := by cases side' <;> decide
  rw [Cursor.ofNat_inj (by omega) (by omega)] at equal
  rw [index_slot] at place
  have congruent := slot_eq_iff.mp place
  rcases Nat.lt_trichotomy j pos.toNat with less | same | more
  · have next : pos.toNat = j + 1 := by omega
    exact (Cursor.succ_mod_ne several j (by rw [congruent, next])).elim
  · subst same
    have sides : side' = side := by
      cases side <;> cases side' <;> simp [Side.phase] at equal ⊢
    rw [sides]
  · have next : j = pos.toNat + 1 := by omega
    exact (Cursor.succ_mod_ne several pos.toNat (by rw [← next, congruent])).elim

/-! ## Views -/

section
variable {m : Memory (Location C) (Fin C.size) UInt64 T} {view view' : View (Location C) (Fin C.size)}

theorem cursor_ne_sequence (side : Side) (i : Fin C.size) :
    (Location.sequence i : Location C) ≠ side.cursor C := by
  cases side <;> exact fun same => by cases same

theorem cursor_inj {side side' : Side} (same : side.cursor C = side'.cursor C) : side = side' := by
  cases side <;> cases side' <;> first | rfl | cases same

theorem Informed.sup (mine : Informed view) (theirs : Informed view') :
    Informed (view ⊔ view') := fun i => max_le_max (mine i) (theirs i)

/-- The cursors carry no knowledge of the slots. -/
theorem Informed.see_cursor (informed : Informed view) (side : Side) (number : ℕ) :
    Informed (view.see (side.cursor C) number) := by
  intro i
  rw [View.see_other _ _ (cursor_ne_sequence side i), View.see_cell]
  exact informed i

/-- An access adds to what its thread knows of the slot. -/
theorem Informed.access (informed : Informed view) (known : Known m view) (cell : Fin C.size) :
    Informed (Function.update view (.inr cell) (m.accesses cell + 1)) := by
  intro i
  rw [Function.update_of_ne (fun same => by cases same)]
  exact (informed i).trans (known.le_access cell (.inr i))

/-- Storing a sequence counts one access. -/
theorem Informed.see_sequence {number : ℕ} {i : Fin C.size} (informed : Informed view)
    (enough : number ≤ view (.inr i)) : Informed (view.see (.sequence i) number) := by
  intro j
  rw [View.see_cell]
  by_cases same : j = i
  · subst same
    rwa [View.see_self]
  · rw [View.see_other _ _ (fun equal => same (Location.sequence.inj equal))]
    exact informed j

end

/-- A load of a cursor. -/
theorem Recorded.load_cursor {s : System Thread T C} (recorded : Recorded s) (viewed : Viewed s)
    {t : Thread} {side : Side} {number : ℕ} {pos : UInt64} {view : View (Location C) (Fin C.size)}
    (small : s.claims side < 2 ^ 63)
    (loaded : s.memory.load (s.views t) .relaxed (side.cursor C) number = some (pos, view)) :
    pos.toNat ≤ s.claims side ∧ Known s.memory view ∧ Informed view := by
  have known := (viewed.known t).load viewed.consistent loaded
  obtain ⟨_, write, found, rfl, rfl⟩ := Memory.load_eq_some loaded
  obtain ⟨made, _⟩ := List.getElem?_eq_some_iff.mp found
  have numbered : number ≤ s.claims side := Nat.le_sub_one_of_lt made
  refine ⟨?_, known, (viewed.informed t).see_cursor side number⟩
  rw [recorded.cursors found, UInt64.toNat_ofNat', Nat.mod_eq_of_lt (by omega)]
  exact numbered

/-- An acquire load of a slot's sequence. -/
theorem Recorded.load_sequence {s : System Thread T C} (recorded : Recorded s) (viewed : Viewed s)
    {t : Thread} {i : Fin C.size} {number : ℕ} {sequence : UInt64}
    {view : View (Location C) (Fin C.size)}
    (loaded : s.memory.load (s.views t) .acquire (.sequence i) number = some (sequence, view)) :
    sequence = .ofNat (sequenceAt i number) ∧ number ≤ turn s.memory i ∧
      number ≤ view (.inl (.sequence i)) ∧ Known s.memory view ∧ Informed view := by
  have known := (viewed.known t).load viewed.consistent loaded
  obtain ⟨recent, write, found, rfl, rfl⟩ := Memory.load_eq_some loaded
  obtain ⟨made, same⟩ := List.getElem?_eq_some_iff.mp found
  obtain ⟨value, own⟩ := recorded.sequences found
  have passed := viewed.passed _ write (same ▸ List.getElem_mem made)
  have view' : ((s.views t).see (.sequence i) number).take .acquire write =
      s.views t ⊔ write.view := View.see_sup recent own
  rw [view'] at known ⊢
  exact ⟨value, Nat.le_sub_one_of_lt made, own.trans (le_sup_right (a := s.views t) _), known,
    (viewed.informed t).sup passed⟩

end Ringio.MpmcOrders
