import Ringio.MpmcSequential

/-! What calls of an `MpmcRing` that do not overlap read off the slots, over
runs of any length. Cursors and sequences are kept modulo `2 ^ 64`, tickets are
not, and nothing a call decides depends on how often the cursors have wrapped. -/
namespace Ringio.MpmcRing
open BoundedFifo

variable {T : Type} {C : Capacity} {ring : MpmcRing T C}

/-- `diff` of `try_push` at the slot of `pos`. -/
def pushDiff (ring : MpmcRing T C) (pos : UInt64) : Int64 :=
  Cursor.signedDiff (ring.slot pos).sequence pos

/-- `diff` of `try_pop`. -/
def popDiff (ring : MpmcRing T C) (pos : UInt64) : Int64 :=
  Cursor.signedDiff (ring.slot pos).sequence (pos + 1)

/-- The differences a `try_push` alone on the ring computes, iteration by
iteration, within `fuel` accesses. -/
def pushDiffs (value : T) : (fuel spurious : ℕ) → MpmcRing T C → PushPoint → List Int64
  | 0, _, _, _ => []
  | fuel + 1, spurious, ring, point =>
    let now := match point with
      | .loadSequence pos => [ring.pushDiff pos]
      | _ => []
    match ring.pushStep value (0 < spurious) point with
    | (ring', .running point') =>
      now ++ pushDiffs value fuel (spurious - point.exchanges) ring' point'
    | (_, .returned _) => now

/-- The same for `try_pop`. -/
def popDiffs : (fuel spurious : ℕ) → MpmcRing T C → PopPoint T → List Int64
  | 0, _, _, _ => []
  | fuel + 1, spurious, ring, point =>
    let now := match point with
      | .loadSequence pos => [ring.popDiff pos]
      | _ => []
    match ring.popStep (0 < spurious) point with
    | (ring', .running point') => now ++ popDiffs fuel (spurious - point.exchanges) ring' point'
    | (_, .returned _) => now

/-- Once it owns its slot a push computes no more differences. -/
private theorem pushDiffs_owned (value : T) (fuel spurious : ℕ) (ring : MpmcRing T C)
    (pos : UInt64) : pushDiffs value fuel spurious ring (.writeValue pos) = [] := by
  match fuel with
  | 0 | 1 => rfl
  | fuel + 2 => rfl

private theorem popDiffs_owned (fuel spurious : ℕ) (ring : MpmcRing T C) (pos : UInt64) :
    popDiffs fuel spurious ring (.readValue pos) = [] := by
  match fuel with
  | 0 | 1 => rfl
  | fuel + 2 => rfl

/-- Alone on the ring every iteration of a push computes the difference at the
cursor. -/
private theorem pushDiffs_alone (value : T) (fuel spurious : ℕ) (ring : MpmcRing T C) :
    ∀ point ∈ [PushPoint.loadPos, .loadSequence ring.enqueuePos, .exchange ring.enqueuePos],
      ∀ diff ∈ pushDiffs value fuel spurious ring point, diff = ring.pushDiff ring.enqueuePos := by
  induction fuel generalizing spurious with
  | zero => simp [pushDiffs]
  | succ fuel ih =>
    have heads (spurious) := List.forall_mem_cons.mp (ih spurious)
    have loads (spurious) := List.forall_mem_cons.mp (heads spurious).2
    have exchanges (spurious) := List.forall_mem_singleton.mp (loads spurious).2
    refine List.forall_mem_cons.mpr ⟨?_, List.forall_mem_cons.mpr ⟨?_, ?_⟩⟩
    · exact (loads _).1
    · simp only [pushDiffs, pushStep]
      split_ifs
      · simpa using exchanges _
      · simp
      · simpa using (heads _).1
    · refine List.forall_mem_singleton.mpr ?_
      simp only [pushDiffs, pushStep]
      split_ifs
      · simp [pushDiffs_owned]
      · simpa using (loads _).1

private theorem popDiffs_alone (fuel spurious : ℕ) (ring : MpmcRing T C) :
    ∀ point ∈ [PopPoint.loadPos, .loadSequence ring.dequeuePos, .exchange ring.dequeuePos],
      ∀ diff ∈ popDiffs fuel spurious ring point, diff = ring.popDiff ring.dequeuePos := by
  induction fuel generalizing spurious with
  | zero => simp [popDiffs]
  | succ fuel ih =>
    have heads (spurious) := List.forall_mem_cons.mp (ih spurious)
    have loads (spurious) := List.forall_mem_cons.mp (heads spurious).2
    have exchanges (spurious) := List.forall_mem_singleton.mp (loads spurious).2
    refine List.forall_mem_cons.mpr ⟨?_, List.forall_mem_cons.mpr ⟨?_, ?_⟩⟩
    · exact (loads _).1
    · simp only [popDiffs, popStep]
      split_ifs
      · simpa using exchanges _
      · simp
      · simpa using (heads _).1
    · refine List.forall_mem_singleton.mpr ?_
      simp only [popDiffs, popStep]
      split_ifs
      · simp [popDiffs_owned]
      · simpa using (loads _).1

/-- A call alone moves its cursor by one if it succeeds, and the other never. -/
private theorem Settled.call_tickets (settled : ring.Settled) (several : 2 ≤ C.size)
    (request : Request T) (spurious fuel : ℕ) (enough : 2 * spurious + 5 ≤ fuel) :
    ∃ reply ring', ring.call fuel spurious request = some (reply, ring') ∧
      ring'.enqueuePos = ring.enqueuePos + .ofNat (accepted [(request, reply)]).length ∧
      ring'.dequeuePos = ring.dequeuePos + .ofNat (delivered [(request, reply)]).length := by
  have still (pos : UInt64) : pos + .ofNat 0 = pos := UInt64.add_zero _
  cases request with
  | push value =>
    by_cases room : ring.count < C.size
    · have ran := runPush_succeeds (settled.push_diff_room room) value spurious fuel enough
      exact ⟨.pushed true, ring.afterPush value, by simp [call, ran], rfl, (still _).symm⟩
    · have full := le_antisymm settled.fits (Nat.not_lt.mp room)
      have ran := runPush_full settled several full value spurious fuel (by omega)
      exact ⟨.pushed false, ring, by simp [call, ran], (still _).symm, (still _).symm⟩
  | pop =>
    by_cases nonempty : 0 < ring.count
    · have ran := runPop_succeeds (settled.pop_diff_nonempty nonempty) spurious fuel enough
      exact ⟨.popped (some (ring.slot ring.dequeuePos).value), ring.afterPop, by simp [call, ran],
        (still _).symm, rfl⟩
    · have empty := Nat.eq_zero_of_not_pos nonempty
      have ran := runPop_empty settled empty spurious fuel (by omega)
      exact ⟨.popped none, ring, by simp [call, ran], (still _).symm, (still _).symm⟩

/-- Over a session the cursors count the successful calls, modulo `2 ^ 64`. -/
theorem Settled.session_tickets (settled : ring.Settled) (several : 2 ≤ C.size)
    (calls : List (Request T × ℕ)) (fuel : ℕ) (enough : ∀ call ∈ calls, 2 * call.2 + 5 ≤ fuel)
    {replies : List (Reply T)} {last : MpmcRing T C}
    (ran : ring.session fuel calls = some (replies, last)) :
    last.enqueuePos = ring.enqueuePos +
        .ofNat (accepted ((calls.map Prod.fst).zip replies)).length ∧
      last.dequeuePos = ring.dequeuePos +
        .ofNat (delivered ((calls.map Prod.fst).zip replies)).length := by
  induction calls generalizing ring replies with
  | nil =>
    cases ran
    exact ⟨(UInt64.add_zero _).symm, (UInt64.add_zero _).symm⟩
  | cons first rest ih =>
    obtain ⟨request, spurious⟩ := first
    have now := enough _ List.mem_cons_self
    obtain ⟨reply, middle, returned, pushed, popped⟩ :=
      settled.call_tickets several request spurious fuel now
    obtain ⟨_, _, returned', again, -⟩ :=
      settled.call_refines several request spurious fuel now
    cases returned.symm.trans returned'
    obtain ⟨_, same, more⟩ := Option.bind_eq_some_iff.mp ran
    cases returned.symm.trans same
    obtain ⟨⟨later, _⟩, ranLater, shape⟩ := Option.map_eq_some_iff.mp more
    cases shape
    have rest := ih again (fun call member => enough call (List.mem_cons_of_mem _ member)) ranLater
    simp only [List.map_cons, List.zip_cons_cons]
    rw [accepted_cons, delivered_cons, List.length_append, List.length_append, UInt64.ofNat_add,
      UInt64.ofNat_add, rest.1, rest.2, pushed, popped, UInt64.add_assoc, UInt64.add_assoc]
    exact ⟨rfl, rfl⟩

/-- What `try_push` and `try_pop` compute on a ring tells whether it is full or
empty, in every iteration of a call alone on it: zero when the call can go
through, negative when it cannot, never positive. -/
structure Classifies (ring : MpmcRing T C) : Prop where
  push : ∀ value fuel spurious, ∀ diff ∈ pushDiffs value fuel spurious ring .loadPos,
    (ring.held.length < C.size → diff = 0) ∧ (ring.held.length = C.size → diff < 0) ∧ ¬ 0 < diff
  pop : ∀ fuel spurious, ∀ diff ∈ popDiffs fuel spurious ring .loadPos,
    (ring.held ≠ [] → diff = 0) ∧ (ring.held = [] → diff < 0) ∧ ¬ 0 < diff
  computed : ∀ value fuel spurious, 2 ≤ fuel →
    pushDiffs value fuel spurious ring .loadPos ≠ [] ∧ popDiffs fuel spurious ring .loadPos ≠ []

private theorem not_pos_of_neg {diff : Int64} (negative : diff < 0) : ¬ 0 < diff := by
  rw [Int64.lt_iff_toInt_lt] at negative ⊢
  omega

/-- Between calls a ring of two slots or more tells full from empty. -/
theorem Settled.classifies (settled : ring.Settled) (several : 2 ≤ C.size) : ring.Classifies := by
  refine ⟨fun value fuel spurious diff computed => ?_, fun fuel spurious diff computed => ?_,
    fun value fuel spurious enough => ?_⟩
  · have same := pushDiffs_alone value fuel spurious ring _ List.mem_cons_self diff computed
    subst same
    rw [length_held]
    by_cases room : ring.count < C.size
    · have zero : ring.pushDiff ring.enqueuePos = 0 := settled.push_diff_room room
      exact ⟨fun _ => zero, fun full => absurd full room.ne, by rw [zero]; decide⟩
    · have full := le_antisymm settled.fits (Nat.not_lt.mp room)
      have negative := settled.push_diff_full several full
      exact ⟨fun more => absurd more room, fun _ => negative, not_pos_of_neg negative⟩
  · have same := popDiffs_alone fuel spurious ring _ List.mem_cons_self diff computed
    subst same
    rw [Ne, ← List.length_eq_zero_iff, length_held]
    by_cases empty : ring.count = 0
    · have negative := settled.pop_diff_empty empty
      exact ⟨fun more => absurd empty more, fun _ => negative, not_pos_of_neg negative⟩
    · have zero : ring.popDiff ring.dequeuePos = 0 :=
        settled.pop_diff_nonempty (Nat.pos_of_ne_zero empty)
      exact ⟨fun _ => zero, fun none => absurd none empty, by rw [zero]; decide⟩
  · obtain ⟨fuel, rfl⟩ := Nat.exists_eq_add_of_le' enough
    constructor
    · simp only [pushDiffs, pushStep]
      split_ifs <;> simp
    · simp only [popDiffs, popStep]
      split_ifs <;> simp

/-- **The slot classification survives wraparound.** After any calls one after
another on a fresh ring of two slots or more, of any number, the cursors stand
at the counts of successful calls modulo `2 ^ 64`, the next call's differences
tell full from empty, and tickets a whole number of laps apart share a slot. -/
theorem classification_survives_wraparound [Inhabited T] (several : 2 ≤ C.size)
    (calls : List (Request T × ℕ)) (fuel : ℕ) (enough : ∀ call ∈ calls, 2 * call.2 + 5 ≤ fuel) :
    ∃ replies ring, (new T C).session fuel calls = some (replies, ring) ∧
      (replies, ring.held) = serve C.size [] (calls.map Prod.fst) ∧
      ring.enqueuePos = .ofNat (accepted ((calls.map Prod.fst).zip replies)).length ∧
      ring.dequeuePos = .ofNat (delivered ((calls.map Prod.fst).zip replies)).length ∧
      ring.Classifies ∧
      ∀ ticket laps, C.index (.ofNat (ticket + laps * C.size)) = C.index (.ofNat ticket) := by
  obtain ⟨ring, ran, settled, left⟩ := new_settled.session_refines several calls fuel enough
  obtain ⟨pushed, popped⟩ := new_settled.session_tickets several calls fuel enough ran
  rw [new_held] at ran left pushed popped
  refine ⟨_, ring, ran, by rw [left], pushed.trans (UInt64.zero_add _),
    popped.trans (UInt64.zero_add _), settled.classifies several, fun ticket laps => ?_⟩
  rw [C.index_eq_iff, Nat.add_mul_mod_self_right]

/-- Two slots, filled, with a push refused and one element taken out. -/
theorem classification_survives_wraparound_two :
    let two : Capacity := ⟨2, by decide, by decide⟩
    ∃ replies ring, (new Bool two).session 7
        [(.push true, 1), (.push false, 0), (.push true, 0), (.pop, 0)] = some (replies, ring) ∧
      replies = [.pushed true, .pushed true, .pushed false, .popped (some true)] ∧
      ring.Classifies := by
  intro two
  obtain ⟨replies, ring, ran, served, -, -, classifies, -⟩ :=
    classification_survives_wraparound (T := Bool) (C := two) (by decide)
      [(.push true, 1), (.push false, 0), (.push true, 0), (.pop, 0)] 7 (by decide)
  exact ⟨replies, ring, ran, congrArg Prod.fst served, classifies⟩

end Ringio.MpmcRing
