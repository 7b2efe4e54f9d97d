import Ringio.MpmcRing
import Ringio.SpscRing

/-! Calls of an `MpmcRing` that do not overlap. Between such calls the sequence
of every slot is determined by the cursors, and the next call reads off it
whether the ring is full or empty. For two slots and more that reading is
right at every cursor value, wrapped or not; a ring of one slot cannot tell a
published slot from a free one. -/
namespace Ringio.MpmcRing
open BoundedFifo

variable {T : Type} {C : Capacity}

/-- The state of the ring while no call is in flight. Slots between the cursors
are published, the others are free for the ticket that will reach them. -/
structure Settled (ring : MpmcRing T C) : Prop where
  fits : ring.count ≤ C.size
  published : ∀ offset < ring.count, (ring.slot (ring.dequeuePos + .ofNat offset)).sequence =
    ring.dequeuePos + .ofNat (offset + 1)
  free : ∀ offset, ring.count ≤ offset → offset < C.size →
    (ring.slot (ring.dequeuePos + .ofNat offset)).sequence = ring.dequeuePos + .ofNat offset

theorem enqueuePos_eq (ring : MpmcRing T C) :
    ring.enqueuePos = ring.dequeuePos + .ofNat ring.count := by
  rw [count, UInt64.ofNat_toNat, UInt64.add_comm, UInt64.sub_add_cancel]

theorem count_eq {ring : MpmcRing T C} {distance : ℕ} (small : distance < 2 ^ 64)
    (apart : ring.enqueuePos = ring.dequeuePos + .ofNat distance) : ring.count = distance := by
  have step : ring.enqueuePos - ring.dequeuePos = UInt64.ofNat distance := by grind
  rw [count, step, UInt64.toNat_ofNat_of_lt' small]

theorem new_settled [Inhabited T] : (new T C).Settled := by
  have none : (new T C).count = 0 := by simp [count, new]
  refine ⟨by omega, fun offset below => by omega, fun offset _ inside => ?_⟩
  have start : (new T C).dequeuePos + .ofNat offset = .ofNat offset := UInt64.zero_add _
  rw [start, slot, new]
  simp only [C.index_ofNat, Nat.mod_eq_of_lt inside]

theorem new_held [Inhabited T] : (new T C).held = [] := by
  simp [held, count, new, Capacity.window]

/-! ## What the slot under a cursor says -/

variable {ring : MpmcRing T C}

/-- `try_push` finds a difference of zero while there is room. -/
theorem Settled.push_diff_room (settled : ring.Settled) (room : ring.count < C.size) :
    Cursor.signedDiff (ring.slot ring.enqueuePos).sequence ring.enqueuePos = 0 := by
  rw [Cursor.signedDiff_eq_zero, ring.enqueuePos_eq]
  exact settled.free _ le_rfl room

/-- On a full ring of two slots or more `try_push` finds a negative one. -/
theorem Settled.push_diff_full (settled : ring.Settled) (several : 2 ≤ C.size)
    (full : ring.count = C.size) :
    Cursor.signedDiff (ring.slot ring.enqueuePos).sequence ring.enqueuePos < 0 := by
  have small := C.size_le
  have lap : C.index ring.enqueuePos = C.index (ring.dequeuePos + .ofNat 0) := by
    rw [ring.enqueuePos_eq, full, ← UInt64.ofNat_toNat (x := ring.dequeuePos), ← UInt64.ofNat_add,
      ← UInt64.ofNat_add, C.index_eq_iff]
    simp
  have oldest := settled.published 0 (by omega)
  rw [slot, ← lap, ← slot] at oldest
  rw [oldest, Int64.lt_iff_toInt_lt, ring.enqueuePos_eq, full,
    Cursor.signedDiff_add _ (by omega) (by omega), Int64.toInt_zero]
  omega

/-- `try_pop` finds a difference of zero while something is held. -/
theorem Settled.pop_diff_nonempty (settled : ring.Settled) (nonempty : 0 < ring.count) :
    Cursor.signedDiff (ring.slot ring.dequeuePos).sequence (ring.dequeuePos + 1) = 0 := by
  rw [Cursor.signedDiff_eq_zero]
  simpa using settled.published 0 nonempty

/-- On an empty ring it finds a negative one. -/
theorem Settled.pop_diff_empty (settled : ring.Settled) (empty : ring.count = 0) :
    Cursor.signedDiff (ring.slot ring.dequeuePos).sequence (ring.dequeuePos + 1) < 0 := by
  have free := settled.free 0 (by omega) C.size_pos
  have start : ring.dequeuePos + .ofNat 0 = ring.dequeuePos := UInt64.add_zero _
  rw [start] at free
  have behind := Cursor.signedDiff_add (a := 0) (b := 1) ring.dequeuePos (by omega) (by omega)
  rw [start] at behind
  rw [free, Int64.lt_iff_toInt_lt, show ring.dequeuePos + 1 = ring.dequeuePos + .ofNat 1 from rfl,
    behind, Int64.toInt_zero]
  decide

/-! ## Whole calls -/

/-- The ring after a push that succeeded alone. -/
def afterPush (ring : MpmcRing T C) (value : T) : MpmcRing T C :=
  (({ ring with enqueuePos := ring.enqueuePos + 1 } : MpmcRing T C).writeValue ring.enqueuePos
    value).storeSequence ring.enqueuePos (ring.enqueuePos + 1)

/-- The ring after a pop that succeeded alone. -/
def afterPop (ring : MpmcRing T C) : MpmcRing T C :=
  ({ ring with dequeuePos := ring.dequeuePos + 1 } : MpmcRing T C).storeSequence ring.dequeuePos
    (ring.dequeuePos + C.value)

/-- From the load of a sequence equal to the cursor a push succeeds, once its
spurious failures are used up. -/
theorem runPush_succeeds
    (ready : Cursor.signedDiff (ring.slot ring.enqueuePos).sequence ring.enqueuePos = 0) (value : T)
    (spurious fuel : ℕ) (enough : 2 * spurious + 5 ≤ fuel) :
    runPush value fuel spurious ring .loadPos = some (true, ring.afterPush value) := by
  obtain ⟨fuel, rfl⟩ := Nat.exists_eq_add_of_le' (show 5 ≤ fuel by omega)
  show runPush value (fuel + 4) spurious ring (.loadSequence ring.enqueuePos) = _
  induction spurious generalizing fuel with
  | zero => simp [runPush, pushStep, ready, PushPoint.exchanges, afterPush]
  | succ spurious ih =>
    obtain ⟨fuel, rfl⟩ := Nat.exists_eq_add_of_le' (show 2 ≤ fuel by omega)
    rw [runPush]
    simp only [pushStep, ready, ↓reduceIte]
    rw [runPush]
    simpa [pushStep, PushPoint.exchanges] using ih fuel (by omega)

/-- The same for a pop. -/
theorem runPop_succeeds
    (ready : Cursor.signedDiff (ring.slot ring.dequeuePos).sequence (ring.dequeuePos + 1) = 0)
    (spurious fuel : ℕ) (enough : 2 * spurious + 5 ≤ fuel) :
    runPop fuel spurious ring .loadPos =
      some (some (ring.slot ring.dequeuePos).value, ring.afterPop) := by
  obtain ⟨fuel, rfl⟩ := Nat.exists_eq_add_of_le' (show 5 ≤ fuel by omega)
  show runPop (fuel + 4) spurious ring (.loadSequence ring.dequeuePos) = _
  induction spurious generalizing fuel with
  | zero =>
    simp only [runPop, popStep, ready, PopPoint.exchanges, Nat.lt_irrefl, decide_false,
      and_self, ↓reduceIte]
    rfl
  | succ spurious ih =>
    obtain ⟨fuel, rfl⟩ := Nat.exists_eq_add_of_le' (show 2 ≤ fuel by omega)
    rw [runPop]
    simp only [popStep, ready, ↓reduceIte]
    rw [runPop]
    simpa [popStep, PopPoint.exchanges] using ih fuel (by omega)

/-- A push on a full settled ring of two slots or more is refused without a
trace. -/
theorem runPush_full (settled : ring.Settled) (several : 2 ≤ C.size) (full : ring.count = C.size)
    (value : T) (spurious fuel : ℕ) (enough : 2 ≤ fuel) :
    runPush value fuel spurious ring .loadPos = some (false, ring) := by
  obtain ⟨fuel, rfl⟩ := Nat.exists_eq_add_of_le' enough
  have behind := settled.push_diff_full several full
  have unequal : Cursor.signedDiff (ring.slot ring.enqueuePos).sequence ring.enqueuePos ≠ 0 :=
    fun zero => by rw [zero] at behind; exact Int64.lt_irrefl behind
  simp [runPush, pushStep, unequal, behind]

/-- A pop on an empty settled ring returns without a trace. -/
theorem runPop_empty (settled : ring.Settled) (empty : ring.count = 0)
    (spurious fuel : ℕ) (enough : 2 ≤ fuel) :
    runPop fuel spurious ring .loadPos = some (none, ring) := by
  obtain ⟨fuel, rfl⟩ := Nat.exists_eq_add_of_le' enough
  have behind := settled.pop_diff_empty empty
  have unequal : Cursor.signedDiff (ring.slot ring.dequeuePos).sequence (ring.dequeuePos + 1) ≠ 0 :=
    fun zero => by rw [zero] at behind; exact Int64.lt_irrefl behind
  simp [runPop, popStep, unequal, behind]

/-! ## What a call leaves behind -/

private theorem add_ofNat_succ (base : UInt64) (offset : ℕ) :
    base + .ofNat (offset + 1) = base + 1 + .ofNat offset := by
  rw [UInt64.ofNat_add, UInt64.add_comm (.ofNat offset), ← UInt64.add_assoc]
  rfl

theorem slot_afterPush (ring : MpmcRing T C) (value : T) (pos : UInt64) :
    (ring.afterPush value).slot pos =
      if C.index pos = C.index ring.enqueuePos then ⟨ring.enqueuePos + 1, value⟩
      else ring.slot pos := by
  simp only [afterPush, storeSequence, writeValue, slot, Function.update_self,
    Function.update_idem, Function.update_apply]

theorem slot_afterPop (ring : MpmcRing T C) (pos : UInt64) :
    ring.afterPop.slot pos =
      if C.index pos = C.index ring.dequeuePos then
        { ring.slot pos with sequence := ring.dequeuePos + C.value }
      else ring.slot pos := by
  simp only [afterPop, storeSequence, slot, Function.update_apply]
  split
  · rename_i same
    rw [same]
  · rfl

theorem count_afterPush (room : ring.count < C.size) (value : T) :
    (ring.afterPush value).count = ring.count + 1 := by
  have small := C.size_le
  refine count_eq (by omega) ?_
  show ring.enqueuePos + 1 = ring.dequeuePos + .ofNat (ring.count + 1)
  rw [ring.enqueuePos_eq, UInt64.ofNat_add, UInt64.add_assoc]
  rfl

theorem count_afterPop (nonempty : 0 < ring.count) : ring.afterPop.count + 1 = ring.count := by
  obtain ⟨left, more⟩ := Nat.exists_eq_succ_of_ne_zero nonempty.ne'
  have bound : ring.count < 2 ^ 64 := (ring.enqueuePos - ring.dequeuePos).toNat_lt
  rw [more]
  refine congrArg Nat.succ (count_eq (by omega) ?_)
  show ring.enqueuePos = ring.dequeuePos + 1 + .ofNat left
  rw [ring.enqueuePos_eq, more, ← add_ofNat_succ]

/-- A push publishes the slot at the enqueue cursor and no other. -/
theorem Settled.afterPush (settled : ring.Settled) (room : ring.count < C.size) (value : T) :
    (ring.afterPush value).Settled ∧ (ring.afterPush value).held = ring.held ++ [value] := by
  have grown := count_afterPush room value
  have own (offset : ℕ) (other : offset ≠ ring.count) (inside : offset < C.size) :
      C.index (ring.dequeuePos + .ofNat offset) ≠ C.index ring.enqueuePos := by
    rw [ring.enqueuePos_eq]
    rcases Nat.lt_or_gt_of_ne other with below | above
    · exact C.index_add_ne _ below (by omega)
    · exact (C.index_add_ne _ above (by omega)).symm
  refine ⟨⟨by omega, ?_, ?_⟩, ?_⟩
  · intro offset below
    show ((ring.afterPush value).slot (ring.dequeuePos + .ofNat offset)).sequence =
      ring.dequeuePos + .ofNat (offset + 1)
    rw [slot_afterPush]
    by_cases last : offset = ring.count
    · subst last
      rw [if_pos (by rw [← ring.enqueuePos_eq]), ring.enqueuePos_eq, UInt64.ofNat_add,
        UInt64.add_assoc]
      rfl
    · rw [if_neg (own offset last (by omega))]
      exact settled.published offset (by omega)
  · intro offset above inside
    show ((ring.afterPush value).slot (ring.dequeuePos + .ofNat offset)).sequence =
      ring.dequeuePos + .ofNat offset
    rw [slot_afterPush, if_neg (own offset (by omega) inside)]
    exact settled.free offset (by omega) inside
  · have values : (fun i => ((ring.afterPush value).slots i).value) =
        Function.update (fun i => (ring.slots i).value) (C.index ring.enqueuePos) value := by
      funext i
      simp only [MpmcRing.afterPush, storeSequence, writeValue, slot, Function.update_self,
        Function.update_idem, Function.update_apply]
      split <;> rfl
    have kept := C.window_update (fun i => (ring.slots i).value) ring.dequeuePos value room
    rw [← ring.enqueuePos_eq] at kept
    rw [held, grown, values, C.window_succ,
      show (ring.afterPush value).dequeuePos = ring.dequeuePos from rfl, ← ring.enqueuePos_eq,
      Function.update_self, kept]
    rfl

/-- A pop frees the slot at the dequeue cursor for the ticket one lap on. -/
theorem Settled.afterPop (settled : ring.Settled) (nonempty : 0 < ring.count) :
    ring.afterPop.Settled ∧
      ring.held = (ring.slot ring.dequeuePos).value :: ring.afterPop.held := by
  have shrunk := count_afterPop nonempty
  have fits := settled.fits
  have start : ring.dequeuePos + .ofNat 0 = ring.dequeuePos := UInt64.add_zero _
  have own (offset : ℕ) (inside : offset + 1 < C.size) :
      C.index (ring.dequeuePos + .ofNat (offset + 1)) ≠ C.index ring.dequeuePos := by
    have apart := C.index_add_ne ring.dequeuePos (Nat.succ_pos offset) (by omega)
    rw [start] at apart
    exact apart.symm
  refine ⟨⟨by omega, ?_, ?_⟩, ?_⟩
  · intro offset below
    show (ring.afterPop.slot (ring.dequeuePos + 1 + .ofNat offset)).sequence =
      ring.dequeuePos + 1 + .ofNat (offset + 1)
    rw [← add_ofNat_succ, ← add_ofNat_succ, slot_afterPop, if_neg (own offset (by omega))]
    exact settled.published (offset + 1) (by omega)
  · intro offset above inside
    show (ring.afterPop.slot (ring.dequeuePos + 1 + .ofNat offset)).sequence =
      ring.dequeuePos + 1 + .ofNat offset
    rw [← add_ofNat_succ, slot_afterPop]
    by_cases last : offset + 1 = C.size
    · rw [last, if_pos, Capacity.size, UInt64.ofNat_toNat]
      rw [← UInt64.ofNat_toNat (x := ring.dequeuePos), ← UInt64.ofNat_add, C.index_eq_iff]
      simp
    · rw [if_neg (own offset (by omega))]
      exact settled.free (offset + 1) (by omega) (by omega)
  · have values : (fun i => (ring.afterPop.slots i).value) = fun i => (ring.slots i).value := by
      funext i
      simp only [MpmcRing.afterPop, storeSequence, slot, Function.update_apply]
      split
      · rename_i same
        rw [same]
      · rfl
    rw [held, held, values, ← shrunk, C.window_cons]
    rfl

/-- A push alone on a settled ring of two slots or more returns, whatever its
compare-exchanges do, and is the queue's push. -/
theorem Settled.push_refines (settled : ring.Settled) (several : 2 ≤ C.size) (value : T)
    (spurious fuel : ℕ) (enough : 2 * spurious + 5 ≤ fuel) :
    ∃ done, runPush value fuel spurious ring .loadPos = some done ∧ done.2.Settled ∧
      answer C.size ring.held (.push value) = (.pushed done.1, done.2.held) ∧
      (done.1 = false → done.2 = ring) := by
  by_cases room : ring.count < C.size
  · obtain ⟨again, grown⟩ := settled.afterPush room value
    refine ⟨_, runPush_succeeds (settled.push_diff_room room) value spurious fuel enough, again,
      ?_, by simp⟩
    simp [answer, room, grown]
  · have full := le_antisymm settled.fits (Nat.not_lt.mp room)
    refine ⟨_, runPush_full settled several full value spurious fuel (by omega), settled, ?_,
      fun _ => rfl⟩
    simp [answer, room]

/-- A pop alone on a settled ring returns and is the queue's pop. -/
theorem Settled.pop_refines (settled : ring.Settled) (spurious fuel : ℕ)
    (enough : 2 * spurious + 5 ≤ fuel) :
    ∃ done, runPop fuel spurious ring .loadPos = some done ∧ done.2.Settled ∧
      answer C.size ring.held .pop = (.popped done.1, done.2.held) ∧
      (done.1 = none → done.2 = ring) := by
  by_cases nonempty : 0 < ring.count
  · obtain ⟨again, shrunk⟩ := settled.afterPop nonempty
    refine ⟨_, runPop_succeeds (settled.pop_diff_nonempty nonempty) spurious fuel enough, again,
      ?_, by simp⟩
    rw [shrunk]
    rfl
  · have empty := Nat.eq_zero_of_not_pos nonempty
    have none : ring.held = [] := by
      rw [← List.length_eq_zero_iff, length_held, empty]
    refine ⟨_, runPop_empty settled empty spurious fuel (by omega), settled, ?_, fun _ => rfl⟩
    simp [answer, none]

/-- **A call alone on a settled ring of two slots or more is the queue's
operation.** It settles the ring again, and a refusal changes nothing. -/
theorem Settled.call_refines (settled : ring.Settled) (several : 2 ≤ C.size) (request : Request T)
    (spurious fuel : ℕ) (enough : 2 * spurious + 5 ≤ fuel) :
    ∃ reply ring', ring.call fuel spurious request = some (reply, ring') ∧ ring'.Settled ∧
      answer C.size ring.held request = (reply, ring'.held) ∧
      (reply = .pushed false ∨ reply = .popped none → ring' = ring) := by
  cases request with
  | push value =>
    obtain ⟨done, ran, again, answered, unchanged⟩ :=
      settled.push_refines several value spurious fuel enough
    exact ⟨.pushed done.1, done.2, by simp [call, ran], again, answered, by simpa using unchanged⟩
  | pop =>
    obtain ⟨done, ran, again, answered, unchanged⟩ := settled.pop_refines spurious fuel enough
    exact ⟨.popped done.1, done.2, by simp [call, ran], again, answered, by simpa using unchanged⟩

/-- A ring of two slots or more, called without overlap, as an implementation
of the queue. Each call's compare-exchange fails spuriously as often as given. -/
def fifo (T : Type) [Inhabited T] (C : Capacity) (several : 2 ≤ C.size) (spurious : ℕ) :
    Queue T where
  State := { ring : MpmcRing T C // ring.Settled }
  new := ⟨MpmcRing.new T C, new_settled⟩
  capacity := C.size
  held state := state.1.held
  tryPush state value :=
    have returns := state.2.push_refines several value spurious _ le_rfl
    let done := (runPush value (2 * spurious + 5) spurious state.1 .loadPos).get
      (Option.isSome_iff_exists.mpr (returns.imp fun _ => And.left))
    (done.1, ⟨done.2, by
      obtain ⟨_, ran, again, -⟩ := returns
      simpa [done, ran] using again⟩)
  tryPop state :=
    have returns := state.2.pop_refines spurious _ le_rfl
    let done := (runPop (2 * spurious + 5) spurious state.1 .loadPos).get
      (Option.isSome_iff_exists.mpr (returns.imp fun _ => And.left))
    (done.1, ⟨done.2, by
      obtain ⟨_, ran, again, -⟩ := returns
      simpa [done, ran] using again⟩)
  new_held := MpmcRing.new_held
  fits state := by
    rw [length_held]
    exact state.2.fits
  push_refines state value := by
    obtain ⟨_, ran, -, answered, -⟩ := state.2.push_refines several value spurious _ le_rfl
    simpa [ran] using answered
  pop_refines state := by
    obtain ⟨_, ran, -, answered, -⟩ := state.2.pop_refines spurious _ le_rfl
    simpa [ran] using answered

/-- Calls one after another on a settled ring answer as the queue does. -/
theorem Settled.session_refines (settled : ring.Settled) (several : 2 ≤ C.size)
    (calls : List (Request T × ℕ)) (fuel : ℕ) (enough : ∀ call ∈ calls, 2 * call.2 + 5 ≤ fuel) :
    ∃ ring', ring.session fuel calls =
        some ((serve C.size ring.held (calls.map Prod.fst)).1, ring') ∧
      ring'.Settled ∧ ring'.held = (serve C.size ring.held (calls.map Prod.fst)).2 := by
  induction calls generalizing ring with
  | nil => exact ⟨ring, rfl, settled, rfl⟩
  | cons first rest ih =>
    obtain ⟨request, spurious⟩ := first
    obtain ⟨reply, middle, returned, again, answered, -⟩ :=
      settled.call_refines several request spurious fuel (enough _ List.mem_cons_self)
    obtain ⟨last, ran, settledLast, heldLast⟩ :=
      ih again fun call member => enough call (List.mem_cons_of_mem _ member)
    refine ⟨last, ?_, settledLast, ?_⟩
    · simp [session, returned, ran, serve, answered]
    · simp [heldLast, serve, answered]

/-- Fuel bounds how long a call is watched and does not change what it does. -/
theorem runPush_mono {value : T} {fuel spurious : ℕ} {point : PushPoint}
    {done : Bool × MpmcRing T C} (returned : runPush value fuel spurious ring point = some done)
    (more : ℕ) : runPush value (fuel + more) spurious ring point = some done := by
  induction fuel generalizing ring point spurious with
  | zero => cases returned
  | succ fuel ih =>
    rw [Nat.add_right_comm]
    simp only [runPush] at returned ⊢
    split
    · rename_i stepped
      simp only [stepped] at returned
      exact ih returned
    · rename_i stepped
      simp only [stepped] at returned
      exact returned

/-- In a ring of one slot the published slot looks free to the next push. -/
theorem Settled.push_diff_one (settled : ring.Settled) (single : C.size = 1)
    (full : ring.count = 1) :
    Cursor.signedDiff (ring.slot ring.enqueuePos).sequence ring.enqueuePos = 0 := by
  have lap : C.index ring.enqueuePos = C.index (ring.dequeuePos + .ofNat 0) := by
    apply Fin.ext
    omega
  have oldest := settled.published 0 (by omega)
  rw [slot, ← lap, ← slot] at oldest
  rw [Cursor.signedDiff_eq_zero, oldest, ring.enqueuePos_eq, full]

/-- Whatever fuel a push was given, with the sequence at the cursor it was
accepted. -/
private theorem push_accepted {value : T} {fuel : ℕ} {reply : Reply T} {ring' : MpmcRing T C}
    (ready : Cursor.signedDiff (ring.slot ring.enqueuePos).sequence ring.enqueuePos = 0)
    (returned : ring.call fuel 0 (.push value) = some (reply, ring')) :
    reply = .pushed true ∧ ring' = ring.afterPush value := by
  obtain ⟨done, ran, shape⟩ := Option.map_eq_some_iff.mp returned
  have same := (runPush_succeeds ready value 0 (fuel + 5) (by omega)).symm.trans
    (runPush_mono ran 5)
  cases Option.some.inj same
  cases shape
  exact ⟨rfl, rfl⟩

/-- The sequential contract of one capacity: from a fresh ring, any calls one
after another, each with any number of spurious compare-exchange failures,
return; their replies are the bounded queue's and `SpscRing`'s; and the next
call also returns, answers as the queue does on what the ring then holds, and
leaves no trace when it is refused. -/
def SequentialFifo (T : Type) [Inhabited T] (C : Capacity) : Prop :=
  ∀ calls : List (Request T × ℕ), calls.length < 2 ^ 63 → ∃ fuel ring,
    (new T C).session fuel calls = some ((serve C.size [] (calls.map Prod.fst)).1, ring) ∧
    ring.held = (serve C.size [] (calls.map Prod.fst)).2 ∧
    ((SpscRing.new T C).session (calls.map Prod.fst)).1 =
      (serve C.size [] (calls.map Prod.fst)).1 ∧
    ∀ request spurious, calls.length + 1 < 2 ^ 63 → ∃ enough reply ring',
      ring.call enough spurious request = some (reply, ring') ∧
      answer C.size ring.held request = (reply, ring'.held) ∧
      (reply = .pushed false ∨ reply = .popped none → ring' = ring)

private theorem fuel_suffices (calls : List (Request T × ℕ)) :
    ∃ fuel, ∀ call ∈ calls, 2 * call.2 + 5 ≤ fuel := by
  induction calls with
  | nil => exact ⟨0, by simp⟩
  | cons first rest ih =>
    obtain ⟨fuel, enough⟩ := ih
    refine ⟨max fuel (2 * first.2 + 5), fun call member => ?_⟩
    rcases List.mem_cons.mp member with rfl | later
    · exact le_max_right _ _
    · exact (enough call later).trans (le_max_left _ _)

private theorem fifo_of_several [Inhabited T] (several : 2 ≤ C.size) : SequentialFifo T C := by
  intro calls _
  obtain ⟨fuel, enough⟩ := fuel_suffices calls
  obtain ⟨ring, ran, settled, heldLast⟩ :=
    new_settled.session_refines (T := T) several calls fuel enough
  rw [new_held] at ran heldLast
  have other := SpscRing.session_refines (SpscRing.new_valid (T := T) (C := C))
    (calls.map Prod.fst)
  rw [SpscRing.new_held] at other
  refine ⟨fuel, ring, ran, heldLast, congrArg Prod.fst other.symm, fun request spurious _ => ?_⟩
  obtain ⟨reply, ring', returned, -, answered, unchanged⟩ :=
    settled.call_refines several request spurious _ le_rfl
  exact ⟨_, reply, ring', returned, answered, unchanged⟩

/-- A pop whose slot has run ahead of the cursor never returns on its own. -/
theorem runPop_spins (ahead : ¬ Cursor.signedDiff (ring.slot ring.dequeuePos).sequence
      (ring.dequeuePos + 1) = 0)
    (notBehind : ¬ Cursor.signedDiff (ring.slot ring.dequeuePos).sequence
      (ring.dequeuePos + 1) < 0) (fuel spurious : ℕ) :
    runPop fuel spurious ring .loadPos = none ∧
      runPop fuel spurious ring (.loadSequence ring.dequeuePos) = none := by
  induction fuel with
  | zero => exact ⟨rfl, rfl⟩
  | succ fuel ih =>
    refine ⟨ih.2, ?_⟩
    simp only [runPop, popStep, ahead, notBehind, ↓reduceIte]
    exact ih.1

private theorem several_of_fifo [Inhabited T] (contract : SequentialFifo T C) : 2 ≤ C.size := by
  by_contra few
  have single : C.size = 1 := by
    have positive := C.size_pos
    omega
  obtain ⟨fuel, ring, ran, -⟩ := contract [(.push default, 0), (.push default, 0)] (by simp)
  have room : (new T C).count < C.size := by
    rw [single, show (new T C).count = 0 by simp [count, new]]
    exact Nat.one_pos
  obtain ⟨⟨first, middle⟩, firstRan, rest⟩ := Option.bind_eq_some_iff.mp ran
  obtain ⟨⟨replies, last⟩, secondRan, shape⟩ := Option.map_eq_some_iff.mp rest
  obtain ⟨rfl, rfl⟩ := push_accepted (new_settled.push_diff_room room) firstRan
  obtain ⟨settled, -⟩ := new_settled.afterPush room (default : T)
  have full := count_afterPush room (default : T)
  rw [show (new T C).count = 0 by simp [count, new]] at full
  obtain ⟨⟨second, _⟩, secondCall, tail⟩ := Option.bind_eq_some_iff.mp secondRan
  obtain ⟨rfl, -⟩ := push_accepted (settled.push_diff_one single full) secondCall
  simp only [session, Option.map_some, Option.some.injEq, Prod.mk.injEq] at tail
  obtain ⟨rfl, -⟩ := tail
  simp [serve, answer, single] at shape

/-- **The sequential contract holds from two slots on, and only there.** The
class's `static_assert` also admits one slot, where it fails. -/
theorem sequential_fifo_iff (T : Type) [Inhabited T] (C : Capacity) :
    SequentialFifo T C ↔ 2 ≤ C.size :=
  ⟨several_of_fifo, fifo_of_several⟩

/-- On one slot the second push is accepted over the first, and the next pop
waits for a sequence that has already gone by. -/
theorem one_slot_overwrites_and_spins :
    let one : Capacity := ⟨1, by decide, by decide⟩
    ¬ SequentialFifo Bool one ∧
    ((new Bool one).session 5 [(.push true, 0), (.push false, 0)]).map Prod.fst =
      some [.pushed true, .pushed true] ∧
    ∀ fuel, (new Bool one).session fuel [(.push true, 0), (.push false, 0), (.pop, 0)] = none := by
  intro one
  refine ⟨fun contract => ?_, by decide, fun fuel => ?_⟩
  · have several := several_of_fifo contract
    exact absurd several (by decide)
  · rw [Option.eq_none_iff_forall_ne_some]
    intro result ran
    obtain ⟨⟨_, _⟩, firstRan, rest⟩ := Option.bind_eq_some_iff.mp ran
    obtain ⟨⟨_, _⟩, secondRan, -⟩ := Option.map_eq_some_iff.mp rest
    obtain ⟨-, rfl⟩ := push_accepted (by decide) firstRan
    obtain ⟨⟨_, _⟩, secondCall, rest⟩ := Option.bind_eq_some_iff.mp secondRan
    obtain ⟨⟨_, _⟩, popRan, -⟩ := Option.map_eq_some_iff.mp rest
    obtain ⟨-, rfl⟩ := push_accepted (by decide) secondCall
    obtain ⟨⟨_, _⟩, popCall, -⟩ := Option.bind_eq_some_iff.mp popRan
    obtain ⟨_, returned, -⟩ := Option.map_eq_some_iff.mp popCall
    rw [(runPop_spins (by decide) (by decide) fuel 0).1] at returned
    cases returned

end Ringio.MpmcRing
