import Ringio.SpscOrders

/-! What the four orders of `SpscRing` are for. A full ring and one pop are enough:
with a weaker pair on `tail_` the pop races with the push it follows, with a weaker
pair on `head_` the next push races with that pop. -/
namespace Ringio.SpscOrders
open ReleaseAcquire SlotHandover

variable {T : Type} [Inhabited T] {C : Capacity} {orders : Orders} {s : System T C} {n : ℕ}

/-- Both ends of the hand-over from producer to consumer are ordered. -/
def Orders.Forward (orders : Orders) : Prop :=
  orders.storeTail = .release ∧ orders.loadTail = .acquire

/-- Both ends of the hand-over back are. -/
def Orders.Backward (orders : Orders) : Prop :=
  orders.storeHead = .release ∧ orders.loadHead = .acquire

theorem Orders.eq_source (forward : orders.Forward) (backward : orders.Backward) :
    orders = .source := by
  obtain ⟨loadHead, storeTail, loadTail, storeHead⟩ := orders
  obtain ⟨rfl, rfl⟩ := forward
  obtain ⟨rfl, rfl⟩ := backward
  rfl

/-- The state after `n` pushes that nobody popped: the producer knows of all there
is, the consumer of nothing. -/
structure Filled (orders : Orders) (n : ℕ) (s : System T C) : Prop where
  clean : s.memory.faults = []
  producer : s.producer = .idle
  consumer : s.consumer = .idle
  length : (s.memory.writes .tail).length = n + 1
  last : (s.memory.writes .tail)[n]? =
    some ⟨.ofNat n, s.producerView.give orders.storeTail .tail n⟩
  heads : s.memory.writes .head = [⟨0, fun _ => 0⟩]
  tail : s.producerView (.inl .tail) = n
  head : s.producerView (.inl .head) = 0
  cells : ∀ cell, s.producerView (.inr cell) = s.memory.accesses cell
  accesses : ∀ j < C.size, s.memory.accesses (slot C j) = if j < n then 1 else 0
  nothing : s.consumerView = fun _ => 0

theorem start_filled : Filled orders 0 (machine T C orders).start where
  clean := rfl
  producer := rfl
  consumer := rfl
  length := rfl
  last := by
    have blank : View.give (fun _ => 0) orders.storeTail Location.tail 0 =
        (fun _ => 0 : View Location (Fin C.size)) := by
      cases orders.storeTail with
      | relaxed => exact View.see_known rfl
      | release => rfl
    show some _ = some (Write.mk _ (View.give (fun _ => 0) orders.storeTail Location.tail 0))
    rw [blank]
    rfl
  heads := rfl
  tail := rfl
  head := rfl
  cells _ := rfl
  accesses _ _ := rfl
  nothing := rfl

/-- `try_push` up to its load of `head_`. -/
theorem reaches_loadHead (orders : Orders) (value : T) {tail : UInt64}
    {view : View Location (Fin C.size)} (idle : s.producer = .idle)
    (last : (s.memory.writes .tail)[s.producerView (.inl .tail)]? = some ⟨tail, view⟩) :
    (machine T C orders).Reaches Machine.anyStep s { s with producer := .loadHead value tail } := by
  refine Machine.exec_reaches [.callPush value, .produce (s.producerView (.inl .tail))] ?_
  simp [Machine.exec, machine, System.next, idle, System.produce, Memory.load, last,
    View.see_known, View.take]

/-- `try_pop` up to its load of `tail_`. -/
theorem reaches_loadTail (orders : Orders) {head : UInt64} {view : View Location (Fin C.size)}
    (idle : s.consumer = .idle)
    (last : (s.memory.writes .head)[s.consumerView (.inl .head)]? = some ⟨head, view⟩) :
    (machine T C orders).Reaches Machine.anyStep s { s with consumer := .loadTail head } := by
  refine Machine.exec_reaches [.callPop, .consume (s.consumerView (.inl .head))] ?_
  simp [Machine.exec, machine, System.next, idle, System.consume, Memory.load, last,
    View.see_known, View.take]

/-- The ring after one more push. -/
def System.pushOne (orders : Orders) (s : System T C) (n : ℕ) : System T C :=
  let view := View.see
    (Function.update s.producerView (.inr (slot C n)) (s.memory.accesses (slot C n) + 1))
    .tail (n + 1)
  { s with
    memory :=
      { s.memory with
        accesses := Function.update s.memory.accesses (slot C n) (s.memory.accesses (slot C n) + 1)
        contents := Function.update s.memory.contents (slot C n) default }.append .tail
          ⟨.ofNat (n + 1), view.give orders.storeTail .tail (n + 1)⟩
    producerView := view
    pushed := s.pushed ++ [default] }

theorem Filled.reaches_pushOne (filled : Filled orders n s) (room : n < C.size) :
    (machine T C orders).Reaches Machine.anyStep s (s.pushOne orders n) := by
  have small := C.size_le
  have begun := reaches_loadHead orders (default : T) filled.producer
    (by rw [filled.tail]; exact filled.last)
  refine begun.trans (Machine.exec_reaches [.produce 0, .produce 0, .produce 0] ?_)
  have same : (s.producerView.see .head 0).take orders.loadHead ⟨(0 : UInt64), fun _ => 0⟩ =
      s.producerView := by
    rw [View.see_known filled.head]
    cases orders.loadHead with
    | relaxed => rfl
    | acquire => exact sup_of_le_left fun _ => Nat.zero_le _
  have notFull : ¬ SpscRing.full C (.ofNat n) 0 = true := by
    show ¬ SpscRing.full C (.ofNat n) (.ofNat 0) = true
    rw [SpscRing.full_iff, Cursor.toNat_sub (by omega) (by omega)]
    omega
  have loaded : s.memory.load s.producerView orders.loadHead .head 0 =
      some (0, s.producerView) := by
    simp only [Memory.load, filled.head, filled.heads, le_refl, ↓reduceIte,
      List.getElem?_cons_zero, Option.map_some, same]
  have written := Memory.write_ordered (m := s.memory) (default : T) (filled.cells (slot C n))
  have slotAt : C.index (.ofNat n) = slot C n := rfl
  simp only [Machine.exec, machine, System.next, System.produce, loaded, Option.map_some,
    Option.bind_some, if_neg notFull, slotAt, written, System.pushOne, Option.some.injEq]
  rw [Memory.store_settled]
  · simp only [filled.length, Cursor.ofNat_add_one, filled.producer]
  · rw [Function.update_of_ne (fun same => by cases same), filled.tail, filled.length]

theorem Filled.pushOne (filled : Filled orders n s) (room : n < C.size) :
    Filled orders (n + 1) (s.pushOne orders n) where
  clean := filled.clean
  producer := filled.producer
  consumer := filled.consumer
  length := by simp [System.pushOne, filled.length]
  last := by simp [System.pushOne, filled.length]
  heads := filled.heads
  tail := by simp [System.pushOne]
  head := by
    simp only [System.pushOne]
    rw [View.see_other _ _ (by decide), Function.update_of_ne (fun same => by cases same)]
    exact filled.head
  cells cell := by
    simp only [System.pushOne, View.see_cell, Memory.append]
    by_cases same : cell = slot C n
    · subst same
      simp
    · rw [Function.update_of_ne (fun equal => same (Sum.inr.inj equal)), Function.update_of_ne same]
      exact filled.cells cell
  accesses j inside := by
    have before := filled.accesses j inside
    simp only [System.pushOne, Memory.append]
    by_cases same : slot C j = slot C n
    · have equal : j = n := Cursor.eq_of_mod_window (slot_eq_iff.mp same) (Nat.zero_le _)
        (by omega) (Nat.zero_le _) (by omega)
      subst equal
      rw [Function.update_self, before]
      simp
    · rw [Function.update_of_ne same, before]
      have apart : j ≠ n := fun equal => same (congrArg _ equal)
      simp only [Nat.lt_succ_iff_lt_or_eq, apart, or_false]
  nothing := filled.nothing

/-- The producer can fill the ring. -/
theorem reaches_filled (T : Type) [Inhabited T] (C : Capacity) (orders : Orders)
    (fits : n ≤ C.size) : ∃ s, (machine T C orders).Reachable Machine.anyStep s ∧ Filled orders n s := by
  induction n with
  | zero => exact ⟨_, .refl, start_filled⟩
  | succ n ih =>
    obtain ⟨s, reached, filled⟩ := ih (by omega)
    exact ⟨_, reached.trans (filled.reaches_pushOne fits), filled.pushOne fits⟩

/-- What the consumer knows after it has loaded the last write of `tail_`. -/
def System.heard (orders : Orders) (s : System T C) (n : ℕ) : View Location (Fin C.size) :=
  View.take (View.see (fun _ => 0) .tail n) orders.loadTail
    (⟨.ofNat n, s.producerView.give orders.storeTail .tail n⟩ : Write _ _ UInt64)

theorem Filled.reaches_read (filled : Filled orders n s) (nonempty : 0 < n) (fits : n ≤ C.size) :
    (machine T C orders).Reaches Machine.anyStep s
      { s with consumer := .read 0, consumerView := s.heard orders n } := by
  have small := C.size_le
  have begun := reaches_loadTail orders filled.consumer
    (by rw [filled.nothing, filled.heads]; rfl)
  refine begun.trans (Machine.exec_reaches [.consume n] ?_)
  have loaded : s.memory.load s.consumerView orders.loadTail .tail n =
      some (.ofNat n, s.heard orders n) := by
    simp only [Memory.load, filled.nothing, Nat.zero_le, ↓reduceIte, filled.last, Option.map_some]
    rfl
  have apart : ¬ (0 : UInt64) = .ofNat n := by
    show ¬ UInt64.ofNat 0 = .ofNat n
    rw [Cursor.ofNat_inj (by omega) (by omega)]
    omega
  simp only [Machine.exec, machine, System.next, System.consume, loaded, Option.map_some,
    Option.bind_some, if_neg apart]

/-- A weaker pair on `tail_`: the pop races with the push it pops. -/
theorem Filled.forward_race (filled : Filled orders n s) (nonempty : 0 < n) (fits : n ≤ C.size)
    (weak : ¬ orders.Forward) :
    ∃ s', (machine T C orders).Reaches Machine.anyStep s s' ∧ s'.memory.faults ≠ [] := by
  have accessed : s.memory.accesses (slot C 0) = 1 := by
    rw [filled.accesses 0 C.size_pos, if_pos nonempty]
  have unheard : s.heard orders n (.inr (slot C 0)) = 0 := by
    rw [System.heard, View.take_give_cell _ weak, View.see_cell]
  refine ⟨_, (filled.reaches_read nonempty fits).trans (Machine.exec_reaches [.consume 0] rfl), ?_⟩
  show (if s.heard orders n (.inr (slot C 0)) = s.memory.accesses (slot C 0) then _ else _) ≠ []
  rw [unheard, accessed, if_neg (by decide)]
  simp

/-- One pop: the producer does not hear of it, and the slot has been accessed
twice. -/
theorem Filled.reaches_popOne (filled : Filled orders n s) (nonempty : 0 < n)
    (fits : n ≤ C.size) :
    ∃ s' view, (machine T C orders).Reaches Machine.anyStep s s' ∧ s'.producer = .idle ∧
      s'.producerView = s.producerView ∧ s'.memory.writes .tail = s.memory.writes .tail ∧
      s'.memory.writes .head =
        [⟨0, fun _ => 0⟩, ⟨.ofNat 1, View.give view orders.storeHead .head 1⟩] ∧
      s'.memory.accesses (slot C 0) = 2 := by
  have accessed : s.memory.accesses (slot C 0) = 1 := by
    rw [filled.accesses 0 C.size_pos, if_pos nonempty]
  let read := s.memory.access (s.heard orders n) (slot C 0)
  refine ⟨_, read.2.see .head 1, (filled.reaches_read nonempty fits).trans
    (Machine.exec_reaches [.consume 0, .consume 0] rfl), filled.producer, rfl, rfl, ?_, ?_⟩
  · show s.memory.writes .head ++ [⟨0 + 1, View.give (read.2.see .head (s.memory.writes .head).length)
      orders.storeHead .head (s.memory.writes .head).length⟩] = _
    rw [filled.heads]
    rfl
  · show Function.update s.memory.accesses (slot C 0) (s.memory.accesses (slot C 0) + 1)
      (slot C 0) = 2
    rw [Function.update_self, accessed]

/-- A weaker pair on `head_`: the push into the freed slot races with the pop that
freed it. -/
theorem Filled.backward_race (filled : Filled orders C.size s) (weak : ¬ orders.Backward) :
    ∃ s', (machine T C orders).Reaches Machine.anyStep s s' ∧ s'.memory.faults ≠ [] := by
  have small := C.size_le
  have positive := C.size_pos
  obtain ⟨s', view, popped, idle, sameView, sameTail, heads, accessed⟩ :=
    filled.reaches_popOne positive le_rfl
  have begun := reaches_loadHead orders (default : T) idle
    (by rw [sameView, filled.tail, sameTail]; exact filled.last)
  have known : s'.producerView (.inr (slot C 0)) = 1 := by
    rw [sameView, filled.cells, filled.accesses 0 positive, if_pos positive]
  have notFull : ¬ SpscRing.full C (.ofNat C.size) (.ofNat 1) = true := by
    rw [SpscRing.full_iff, Cursor.toNat_sub (by omega) (by omega)]
    omega
  have around : C.index (.ofNat C.size) = slot C 0 := by
    refine slot_eq_iff.mpr ?_
    simp
  have before : s'.producerView (.inl .head) ≤ 1 := by
    rw [sameView, filled.head]
    exact Nat.zero_le _
  let now := (s'.producerView.see .head 1).take orders.loadHead
    (⟨.ofNat 1, view.give orders.storeHead .head 1⟩ : Write _ _ UInt64)
  have loaded : s'.memory.load s'.producerView orders.loadHead .head 1 =
      some (.ofNat 1, now) := by
    simp only [Memory.load, before, ↓reduceIte, heads, List.getElem?_cons_succ,
      List.getElem?_cons_zero, Option.map_some, now]
  have unheard : now (.inr (slot C 0)) = 1 :=
    ((View.take_give_cell _ weak).trans (View.see_cell ..)).trans known
  have reached : (machine T C orders).Reaches Machine.anyStep s
      { s' with producer := .write default (.ofNat C.size), producerView := now } := by
    refine (popped.trans begun).trans (Machine.exec_reaches [.produce 1] ?_)
    simp only [Machine.exec, machine, System.next, System.produce, loaded, Option.map_some,
      Option.bind_some, if_neg notFull]
  refine ⟨_, reached.trans (Machine.exec_reaches [.produce 0] rfl), ?_⟩
  show (if now (.inr (C.index (.ofNat C.size))) = s'.memory.accesses (C.index (.ofNat C.size))
    then _ else _) ≠ []
  rw [around, unheard, accessed, if_neg (by decide)]
  simp

/-- **The orders of the ring are the weakest that work.** Whatever the element type
and the capacity, every run is free of races if and only if all four operations
that cross threads have the order they are written with. -/
theorem race_free_iff_orders (T : Type) [Inhabited T] (C : Capacity) (orders : Orders) :
    (∀ s, (machine T C orders).Reachable Machine.anyStep s → s.memory.faults = []) ↔
      orders = .source := by
  constructor
  · intro clean
    obtain ⟨s, reached, filled⟩ := reaches_filled T C orders le_rfl
    by_cases forward : orders.Forward
    · by_cases backward : orders.Backward
      · exact Orders.eq_source forward backward
      · obtain ⟨s', onward, raced⟩ := filled.backward_race backward
        exact (raced (clean s' (reached.trans onward))).elim
    · obtain ⟨s', onward, raced⟩ := filled.forward_race C.size_pos le_rfl forward
      exact (raced (clean s' (reached.trans onward))).elim
  · rintro rfl s reached
    exact (run_sound reached).clean

end Ringio.SpscOrders
