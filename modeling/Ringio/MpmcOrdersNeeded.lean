import Ringio.MpmcOrdersDelivery

/-! What the four orders on the slot sequences of `MpmcRing` are for. Two threads
are enough: one fills the ring, the other pops once, the first pushes again. -/
namespace Ringio.MpmcOrders
open ReleaseAcquire SlotHandover

variable {Thread T : Type} [DecidableEq Thread] [Inhabited T] {C : Capacity} {orders : Orders}
  {s s' : System Thread T C} {a b t : Thread} {n : ℕ}

/-! ## One call alone -/

section
variable {m m' : Memory (Location C) (Fin C.size) UInt64 T} {r : Running T} {side : Side} {value : T}
  {view view' : View (Location C) (Fin C.size)} {pos : UInt64} {number : ℕ} {fails : Bool}

omit [Inhabited T] in
theorem move_move (s : System Thread T C) (t : Thread) (running running' : Option (Running T)) :
    (s.move t m view running).move t m' view' running' = s.move t m' view' running' := by
  simp [System.move]

theorem reaches_run (number : ℕ) (fails : Bool)
    (done : (s.move t m view (some r)).access orders t r number fails = some s') :
    (machine Thread T C orders).Reaches Machine.anyStep (s.move t m view (some r)) s' := by
  refine .single ⟨.run t number fails, ?_, trivial⟩
  simp only [machine, System.next, move_threads_self]
  exact done

theorem reaches_loadSequence (s : System Thread T C) (t : Thread) (value : T)
    (loaded : m.load view .relaxed (side.cursor C) number = some (pos, view')) :
    (machine Thread T C orders).Reaches Machine.anyStep
      (s.move t m view (some ⟨side, value, .loadPos⟩))
      (s.move t m view' (some ⟨side, value, .loadSequence pos⟩)) := by
  refine reaches_run number false ?_
  simp only [System.access, move_views_self]
  rw [show (s.move t m view (some ⟨side, value, .loadPos⟩)).memory = m from rfl, loaded]
  simp only [Option.map_some, move_move]

theorem reaches_exchange (s : System Thread T C) (t : Thread) (value : T)
    (loaded : m.load view (orders.load side) (.sequence (C.index pos)) number =
      some (side.ready pos, view')) :
    (machine Thread T C orders).Reaches Machine.anyStep
      (s.move t m view (some ⟨side, value, .loadSequence pos⟩))
      (s.move t m view' (some ⟨side, value, .exchange pos⟩)) := by
  refine reaches_run number false ?_
  have ready : System.judge (⟨side, value, .loadSequence pos⟩ : Running T) pos (side.ready pos) =
      some ⟨side, value, .exchange pos⟩ := by
    simp only [System.judge, (Cursor.signedDiff_eq_zero _ _).mpr rfl, ↓reduceIte]
  simp only [System.access, move_views_self]
  rw [show (s.move t m view (some ⟨side, value, .loadSequence pos⟩)).memory = m from rfl, loaded]
  simp only [Option.map_some, move_move, ready]

theorem reaches_claim (s : System Thread T C) (t : Thread) (value : T)
    (latest : m.latest (side.cursor C) = some pos)
    (done : m.exchange view .relaxed .relaxed (side.cursor C) (pos + 1) = some (m', view')) :
    (machine Thread T C orders).Reaches Machine.anyStep
      (s.move t m view (some ⟨side, value, .exchange pos⟩))
      (s.move t m' view' (some ⟨side, value, .access pos⟩)) := by
  refine reaches_run 0 false ?_
  simp only [System.access, move_views_self, Bool.false_eq_true, ↓reduceIte]
  rw [show (s.move t m view (some ⟨side, value, .exchange pos⟩)).memory = m from rfl, if_pos latest,
    done]
  simp only [Option.map_some, move_move]

theorem reaches_copy (copied : (s.move t m view (some ⟨side, value, .access pos⟩)).copy t
      ⟨side, value, .access pos⟩ pos = s') :
    (machine Thread T C orders).Reaches Machine.anyStep
      (s.move t m view (some ⟨side, value, .access pos⟩)) s' :=
  reaches_run 0 false (congrArg some copied)

theorem reaches_left (orders : Orders) (s : System Thread T C) (t : Thread) (side : Side) (value : T)
    (pos : UInt64) (m : Memory (Location C) (Fin C.size) UInt64 T)
    (view : View (Location C) (Fin C.size)) :
    (machine Thread T C orders).Reaches Machine.anyStep
      (s.move t m view (some ⟨side, value, .storeSequence pos⟩))
      { s.move t (m.store view (orders.store side) (.sequence (C.index pos)) (side.handed C pos)).1
          (m.store view (orders.store side) (.sequence (C.index pos)) (side.handed C pos)).2 none with
        log := Function.update s.log side (s.log side ++ [⟨t, pos.toNat, value⟩]) } := by
  refine reaches_run 0 false ?_
  simp only [System.access, move_views_self, move_move]
  rfl

end

/-- What a thread knows once it has found a slot ready. -/
def heard (orders : Orders) (side : Side) (view : View (Location C) (Fin C.size)) (pos : UInt64)
    (last number : ℕ) (ready : View (Location C) (Fin C.size)) : View (Location C) (Fin C.size) :=
  View.take ((view.see (side.cursor C) last).see (.sequence (C.index pos)) number) (orders.load side)
    (⟨side.ready pos, ready⟩ : Write _ _ UInt64)

theorem heard_nothing (orders : Orders) (side : Side) (view : View (Location C) (Fin C.size))
    (pos : UInt64) (last number : ℕ) :
    heard orders side view pos last number (fun _ => 0) =
      (view.see (side.cursor C) last).see (.sequence (C.index pos)) number := by
  unfold heard
  cases orders.load side with
  | relaxed => rfl
  | acquire => exact sup_of_le_left fun _ => Nat.zero_le _

/-- A call up to its successful compare-exchange, in one go. -/
theorem reaches_access (orders : Orders) (side : Side) (value : T) {pos : UInt64} {number : ℕ}
    {last ready : View (Location C) (Fin C.size)} (idle : s.threads t = none)
    (length : (s.memory.writes (side.cursor C)).length = n + 1)
    (latest : (s.memory.writes (side.cursor C))[n]? = some ⟨pos, last⟩)
    (recent : s.views t (.inl (side.cursor C)) ≤ n)
    (available : (s.memory.writes (.sequence (C.index pos)))[number]? =
      some ⟨side.ready pos, ready⟩)
    (recent' : s.views t (.inl (.sequence (C.index pos))) ≤ number) :
    ∃ passed, (machine Thread T C orders).Reaches Machine.anyStep s
      (s.move t (s.memory.append (side.cursor C) ⟨pos + 1, passed⟩)
        (View.see (heard orders side (s.views t) pos n number ready) (side.cursor C) (n + 1))
        (some ⟨side, value, .access pos⟩)) := by
  have apart := cursor_ne_sequence side (C.index pos)
  have called : (machine Thread T C orders).Reaches Machine.anyStep s
      (s.move t s.memory (s.views t) (some ⟨side, value, .loadPos⟩)) := by
    refine .single ⟨.call t side value, ?_, trivial⟩
    simp only [machine, System.next, idle]
  have loaded : s.memory.load (s.views t) .relaxed (side.cursor C) n =
      some (pos, (s.views t).see (side.cursor C) n) := by
    simp only [Memory.load, recent, ↓reduceIte, latest, Option.map_some, View.take]
  have found : s.memory.load ((s.views t).see (side.cursor C) n) (orders.load side)
      (.sequence (C.index pos)) number =
        some (side.ready pos, heard orders side (s.views t) pos n number ready) := by
    simp only [Memory.load, View.see_other _ _ apart, recent', ↓reduceIte, available,
      Option.map_some, heard]
  have final : (s.memory.writes (side.cursor C)).getLast? = some ⟨pos, last⟩ := by
    rw [List.getLast?_eq_getElem?, length]
    exact latest
  refine ⟨last ⊔ View.give (View.see (heard orders side (s.views t) pos n number ready)
      (side.cursor C) (n + 1)) .relaxed (side.cursor C) (n + 1),
    ((called.trans (reaches_loadSequence s t value loaded)).trans
      (reaches_exchange s t value found)).trans (reaches_claim s t value ?_ ?_)⟩
  · simp only [Memory.latest, final, Option.map_some]
  · simp only [Memory.exchange, final, Option.map_some, length, View.take]

/-- What one call alone leaves behind. -/
structure Called (orders : Orders) (s s' : System Thread T C) (t : Thread) (side : Side)
    (pos : UInt64) (n : ℕ) (known : View (Location C) (Fin C.size)) : Prop where
  threads : ∀ t', s.threads t' = none → s'.threads t' = none
  others : ∀ {t'}, t' ≠ t → s'.views t' = s.views t'
  cursor : ∃ passed, s'.memory.writes (side.cursor C) =
    s.memory.writes (side.cursor C) ++ [⟨pos + 1, passed⟩]
  sequence : ∃ view, s'.memory.writes (.sequence (C.index pos)) =
    s.memory.writes (.sequence (C.index pos)) ++
      [⟨side.handed C pos, View.give view (orders.store side) (.sequence (C.index pos))
        (s.memory.writes (.sequence (C.index pos))).length⟩]
  rest : ∀ {loc}, loc ≠ side.cursor C → loc ≠ .sequence (C.index pos) →
    s'.memory.writes loc = s.memory.writes loc
  accesses : s'.memory.accesses = Function.update s.memory.accesses (C.index pos)
    (s.memory.accesses (C.index pos) + 1)
  cell : s'.views t (.inr (C.index pos)) = s.memory.accesses (C.index pos) + 1
  cells : ∀ {i}, i ≠ C.index pos → s'.views t (.inr i) = known (.inr i)
  own : s'.views t (.inl (side.cursor C)) = n + 1
  slot : s'.views t (.inl (.sequence (C.index pos))) =
    (s.memory.writes (.sequence (C.index pos))).length
  locations : ∀ {loc}, loc ≠ side.cursor C → loc ≠ .sequence (C.index pos) →
    s'.views t (.inl loc) = known (.inl loc)

/-- A call from its claim to its return. -/
theorem reaches_return (orders : Orders) (side : Side) (value : T) (pos : UInt64) (n : ℕ)
    (passed known : View (Location C) (Fin C.size)) :
    ∃ s', (machine Thread T C orders).Reaches Machine.anyStep
      (s.move t (s.memory.append (side.cursor C) ⟨pos + 1, passed⟩)
        (known.see (side.cursor C) (n + 1)) (some ⟨side, value, .access pos⟩)) s' ∧
      Called orders s s' t side pos n known := by
  have apart := cursor_ne_sequence side (C.index pos)
  obtain ⟨value', m, copied, writes, accesses⟩ : ∃ value' m,
      (s.move t (s.memory.append (side.cursor C) ⟨pos + 1, passed⟩)
        (known.see (side.cursor C) (n + 1)) (some ⟨side, value, .access pos⟩)).copy t
          ⟨side, value, .access pos⟩ pos =
        s.move t m (Function.update (known.see (side.cursor C) (n + 1)) (.inr (C.index pos))
          (s.memory.accesses (C.index pos) + 1)) (some ⟨side, value', .storeSequence pos⟩) ∧
      m.writes = (s.memory.append (side.cursor C) ⟨pos + 1, passed⟩).writes ∧
      m.accesses = Function.update s.memory.accesses (C.index pos)
        (s.memory.accesses (C.index pos) + 1) := by
    cases side with
    | push =>
      let done := (s.memory.append (Side.push.cursor C) ⟨pos + 1, passed⟩).write
        (known.see (Side.push.cursor C) (n + 1)) (C.index pos) value
      refine ⟨value, done.1, ?_, rfl, rfl⟩
      simp only [System.copy, move_move, move_views_self]
      rfl
    | pop =>
      let done := (s.memory.append (Side.pop.cursor C) ⟨pos + 1, passed⟩).access
        (known.see (Side.pop.cursor C) (n + 1)) (C.index pos)
      refine ⟨s.memory.contents (C.index pos), done.1, ?_, rfl, rfl⟩
      simp only [System.copy, move_move, move_views_self]
      rfl
  have sequences : m.writes (.sequence (C.index pos)) =
      s.memory.writes (.sequence (C.index pos)) := by
    rw [writes, Memory.append_other _ _ apart]
  have left := reaches_left orders s t side value' pos m
    (Function.update (known.see (side.cursor C) (n + 1)) (.inr (C.index pos))
      (s.memory.accesses (C.index pos) + 1))
  generalize seen : Function.update (known.see (side.cursor C) (n + 1)) (.inr (C.index pos))
    (s.memory.accesses (C.index pos) + 1) = view at copied left
  have locs (loc : Location C) : view (.inl loc) = known.see (side.cursor C) (n + 1) (.inl loc) := by
    rw [← seen]
    exact Function.update_of_ne (fun same => by cases same) _ _
  have final (place : Location C ⊕ Fin C.size) :
      Function.update s.views t (m.store view (orders.store side) (.sequence (C.index pos))
        (side.handed C pos)).2 t place =
      View.see view (.sequence (C.index pos))
        (s.memory.writes (.sequence (C.index pos))).length place := by
    rw [Function.update_self, ← sequences]
    rfl
  refine ⟨_, (reaches_copy copied).trans left, fun t' idle => ?_,
    fun other => Function.update_of_ne other _ _, ⟨passed, ?_⟩,
    ⟨View.see view (.sequence (C.index pos)) (s.memory.writes (.sequence (C.index pos))).length, ?_⟩,
    fun other elsewhere => ?_, accesses, ?_, fun other => ?_, ?_, ?_, fun other elsewhere => ?_⟩
  · by_cases same : t' = t
    · subst same
      exact Function.update_self ..
    · exact (Function.update_of_ne same _ _).trans idle
  · refine (Memory.append_other _ _ apart.symm).trans ?_
    rw [writes, Memory.append_self]
  · refine (Memory.append_self _ _ _).trans ?_
    rw [sequences]
  · refine (Memory.append_other _ _ elsewhere).trans ?_
    rw [writes, Memory.append_other _ _ other]
  · refine (final _).trans ?_
    rw [View.see_cell, ← seen, Function.update_self]
  · refine (final _).trans ?_
    rw [View.see_cell, ← seen, Function.update_of_ne (fun same => other (Sum.inr.inj same)),
      View.see_cell]
  · refine (final _).trans ?_
    rw [View.see_other _ _ apart.symm, locs, View.see_self]
  · exact (final _).trans (View.see_self _ _ _)
  · refine (final _).trans ?_
    rw [View.see_other _ _ elsewhere, locs, View.see_other _ _ other]

/-- A whole call of a thread that finds its slot ready. -/
theorem reaches_called (orders : Orders) (side : Side) (value : T) {pos : UInt64} {number : ℕ}
    {last ready : View (Location C) (Fin C.size)} (idle : s.threads t = none)
    (length : (s.memory.writes (side.cursor C)).length = n + 1)
    (latest : (s.memory.writes (side.cursor C))[n]? = some ⟨pos, last⟩)
    (recent : s.views t (.inl (side.cursor C)) ≤ n)
    (available : (s.memory.writes (.sequence (C.index pos)))[number]? =
      some ⟨side.ready pos, ready⟩)
    (recent' : s.views t (.inl (.sequence (C.index pos))) ≤ number) :
    ∃ s', (machine Thread T C orders).Reaches Machine.anyStep s s' ∧
      Called orders s s' t side pos n (heard orders side (s.views t) pos n number ready) := by
  obtain ⟨passed, claimed⟩ :=
    reaches_access orders side value idle length latest recent available recent'
  obtain ⟨s', returned, called⟩ := reaches_return (s := s) (t := t) orders side value pos n passed
    (heard orders side (s.views t) pos n number ready)
  exact ⟨s', claimed.trans returned, called⟩

/-- A call that has not heard of every access to its slot. -/
theorem reaches_race (orders : Orders) (side : Side) {pos : UInt64} {number : ℕ}
    {last ready : View (Location C) (Fin C.size)} (idle : s.threads t = none)
    (length : (s.memory.writes (side.cursor C)).length = n + 1)
    (latest : (s.memory.writes (side.cursor C))[n]? = some ⟨pos, last⟩)
    (recent : s.views t (.inl (side.cursor C)) ≤ n)
    (available : (s.memory.writes (.sequence (C.index pos)))[number]? =
      some ⟨side.ready pos, ready⟩)
    (recent' : s.views t (.inl (.sequence (C.index pos))) ≤ number)
    (unheard : heard orders side (s.views t) pos n number ready (.inr (C.index pos)) ≠
      s.memory.accesses (C.index pos)) :
    ∃ s', (machine Thread T C orders).Reaches Machine.anyStep s s' ∧ s'.memory.faults ≠ [] ∧
      ∀ side, s'.claims side ≤ s.claims side + 1 := by
  obtain ⟨passed, claimed⟩ :=
    reaches_access orders side (default : T) idle length latest recent available recent'
  have known : (s.move t (s.memory.append (side.cursor C) ⟨pos + 1, passed⟩)
      (View.see (heard orders side (s.views t) pos n number ready) (side.cursor C) (n + 1))
      (some ⟨side, (default : T), .access pos⟩)).views t (.inr (C.index pos)) ≠
        s.memory.accesses (C.index pos) := by
    rwa [move_views_self, View.see_cell]
  refine ⟨_, claimed.trans (reaches_copy rfl), ?_, fun side' => ?_⟩
  · cases side with
    | push =>
      show (if _ = s.memory.accesses (C.index pos) then _ else _) ≠ []
      rw [if_neg known]
      simp
    | pop =>
      show (if _ = s.memory.accesses (C.index pos) then _ else _) ≠ []
      rw [if_neg known]
      simp
  · have claims : System.claims (System.copy (s.move t
        (s.memory.append (side.cursor C) ⟨pos + 1, passed⟩)
        (View.see (heard orders side (s.views t) pos n number ready) (side.cursor C) (n + 1))
        (some ⟨side, (default : T), .access pos⟩)) t ⟨side, default, .access pos⟩ pos) side' =
        ((s.memory.append (side.cursor C) ⟨pos + 1, passed⟩).writes (side'.cursor C)).length - 1 := by
      cases side <;> rfl
    rw [claims]
    unfold System.claims
    by_cases same : side' = side
    · subst same
      rw [Memory.append_self, List.length_append]
      exact Nat.sub_le_of_le_add (by simp only [List.length_singleton]; omega)
    · rw [Memory.append_other _ _ fun equal => same (cursor_inj equal)]
      exact Nat.le_succ _

/-! ## A full ring -/

/-- The state after `n` pushes of one thread that nobody popped. -/
structure Filled (orders : Orders) (a b : Thread) (n : ℕ) (s : System Thread T C) : Prop where
  idle : ∀ t, s.threads t = none
  length : (s.memory.writes .enqueuePos).length = n + 1
  latest : ∃ last, (s.memory.writes .enqueuePos)[n]? = some ⟨.ofNat n, last⟩
  heads : s.memory.writes .dequeuePos = [⟨0, fun _ => 0⟩]
  own : s.views a (.inl .enqueuePos) = n
  fresh : ∀ j < C.size, n ≤ j → s.memory.writes (.sequence (slot C j)) = [⟨.ofNat j, fun _ => 0⟩] ∧
    s.views a (.inl (.sequence (slot C j))) = 0 ∧ s.memory.accesses (slot C j) = 0
  first : 0 < n → s.memory.accesses (slot C 0) = 1 ∧ s.views a (.inr (slot C 0)) = 1 ∧
    s.views a (.inl (.sequence (slot C 0))) ≤ 1 ∧ ∃ view,
      s.memory.writes (.sequence (slot C 0)) = [⟨0, fun _ => 0⟩,
        ⟨.ofNat 1, View.give view (orders.store .push) (.sequence (slot C 0)) 1⟩]
  other : s.views b = fun _ => 0

theorem start_filled (a b : Thread) : Filled orders a b 0 (machine Thread T C orders).start where
  idle _ := rfl
  length := rfl
  latest := ⟨fun _ => 0, rfl⟩
  heads := rfl
  own := rfl
  fresh j inside _ := by
    refine ⟨?_, rfl, rfl⟩
    have place : (slot C j).val = j := (C.index_ofNat j).trans (Nat.mod_eq_of_lt inside)
    show [Write.mk (UInt64.ofNat (slot C j).val) _] = _
    rw [place]
  first some := (Nat.not_lt_zero _ some).elim
  other := rfl

theorem Filled.push (filled : Filled orders a b n s) (apart : b ≠ a) (room : n < C.size) :
    ∃ s', (machine Thread T C orders).Reaches Machine.anyStep s s' ∧
      Filled orders a b (n + 1) s' := by
  obtain ⟨last, latest⟩ := filled.latest
  obtain ⟨ready, unseen, untouched⟩ := filled.fresh n room le_rfl
  have available : (s.memory.writes (.sequence (C.index (.ofNat n))))[0]? =
      some ⟨Side.push.ready (.ofNat n), fun _ => 0⟩ := by
    rw [show C.index (.ofNat n) = slot C n from rfl, ready]
    rfl
  obtain ⟨s', reached, called⟩ := reaches_called orders .push (default : T) (filled.idle a)
    filled.length latest filled.own.le available unseen.le
  rw [heard_nothing] at called
  have elsewhere {j : ℕ} (inside : j < C.size) (later : n ≠ j) : slot C j ≠ slot C n := fun same =>
    later (Cursor.eq_of_mod_window (slot_eq_iff.mp same) (Nat.zero_le _) (by omega)
      (Nat.zero_le _) (by omega)).symm
  have noCursor (j : ℕ) : Location.sequence (slot C j) ≠ Side.push.cursor C :=
    cursor_ne_sequence .push _
  have noSlot {j : ℕ} (apart : slot C j ≠ slot C n) :
      Location.sequence (slot C j) ≠ .sequence (C.index (.ofNat n)) := fun same =>
    apart (Location.sequence.inj same)
  obtain ⟨passed, cursor⟩ := called.cursor
  refine ⟨s', reached, ⟨fun t => called.threads t (filled.idle t), ?_, ⟨passed, ?_⟩, ?_, called.own,
    fun j inside later => ⟨?_, ?_, ?_⟩, fun _ => ?_, ?_⟩⟩
  · refine (congrArg List.length cursor).trans ?_
    rw [List.length_append]
    exact congrArg (· + 1) filled.length
  · refine (congrArg (·[n + 1]?) cursor).trans ?_
    rw [← Cursor.ofNat_add_one]
    have length : (s.memory.writes (Side.push.cursor C)).length = n + 1 := filled.length
    rw [← length, List.getElem?_concat_length]
  · refine (called.rest ?_ ?_).trans filled.heads
    · exact fun same => by cases same
    · exact fun same => by cases same
  · have apart := elsewhere inside (by omega)
    exact (called.rest (noCursor j) (noSlot apart)).trans (filled.fresh j inside (by omega)).1
  · have apart := elsewhere inside (by omega)
    rw [called.locations (noCursor j) (noSlot apart), View.see_other _ _ (noSlot apart),
      View.see_other _ _ (noCursor j)]
    exact (filled.fresh j inside (by omega)).2.1
  · have apart := elsewhere inside (by omega)
    rw [called.accesses]
    exact (Function.update_of_ne apart _ _).trans (filled.fresh j inside (by omega)).2.2
  · by_cases empty : n = 0
    · subst empty
      obtain ⟨view, sequence⟩ := called.sequence
      have one : (s.memory.writes (.sequence (C.index (.ofNat 0)))).length = 1 := by
        rw [show C.index (.ofNat 0) = slot C 0 from rfl, ready]
        rfl
      rw [one] at sequence
      refine ⟨?_, ?_, (called.slot.trans one).le, view, ?_⟩
      · rw [called.accesses]
        refine (Function.update_self ..).trans ?_
        rw [show C.index (.ofNat 0) = slot C 0 from rfl, untouched]
      · refine called.cell.trans ?_
        rw [show C.index (.ofNat 0) = slot C 0 from rfl, untouched]
      · refine sequence.trans ?_
        rw [show C.index (.ofNat 0) = slot C 0 from rfl, ready]
        rfl
    · have apart := elsewhere C.size_pos empty
      obtain ⟨accesses, known, seen, view, sequence⟩ := filled.first (Nat.pos_of_ne_zero empty)
      refine ⟨?_, ?_, ?_, view, ?_⟩
      · rw [called.accesses]
        exact (Function.update_of_ne apart _ _).trans accesses
      · rw [called.cells apart, View.see_cell, View.see_cell, known]
      · rw [called.locations (noCursor 0) (noSlot apart), View.see_other _ _ (noSlot apart),
          View.see_other _ _ (noCursor 0)]
        exact seen
      · exact (called.rest (noCursor 0) (noSlot apart)).trans sequence
  · exact (called.others apart).trans filled.other

/-- One thread can fill the ring. -/
theorem reaches_filled (T : Type) [Inhabited T] (C : Capacity) (orders : Orders) (apart : b ≠ a)
    (fits : n ≤ C.size) :
    ∃ s, (machine Thread T C orders).Reachable Machine.anyStep s ∧ Filled orders a b n s := by
  induction n with
  | zero => exact ⟨_, .refl, start_filled a b⟩
  | succ n ih =>
    obtain ⟨s, reached, filled⟩ := ih (by omega)
    obtain ⟨s', onward, filled'⟩ := filled.push apart fits
    exact ⟨s', reached.trans onward, filled'⟩

/-! ## Races -/

omit [Inhabited T] in
/-- The memory only grows, whatever the orders. -/
theorem next_grows {command : Command Thread T} (moved : s.next orders command = some s') :
    Grows s.memory s'.memory := by
  cases command with
  | call t side value =>
    simp only [System.next] at moved
    split at moved
    · cases moved
      exact Grows.refl _
    · cases moved
  | run t number fails =>
    simp only [System.next] at moved
    split at moved
    · cases moved
    · rename_i r inside
      cases point : r.point with
      | loadPos =>
        simp only [System.access, point] at moved
        obtain ⟨_, _, rfl⟩ := Option.map_eq_some_iff.mp moved
        exact Grows.refl _
      | loadSequence pos =>
        simp only [System.access, point] at moved
        obtain ⟨_, _, rfl⟩ := Option.map_eq_some_iff.mp moved
        exact Grows.refl _
      | exchange pos =>
        simp only [System.access, point] at moved
        split at moved
        · obtain ⟨_, _, rfl⟩ := Option.map_eq_some_iff.mp moved
          exact Grows.refl _
        · split at moved
          · obtain ⟨_, done, rfl⟩ := Option.map_eq_some_iff.mp moved
            obtain ⟨_, _, _, same⟩ := Memory.exchange_eq_some done
            show Grows s.memory _
            rw [System.move, same]
            exact append_grows _ _ _
          · cases moved
      | access pos =>
        simp only [System.access, point] at moved
        cases moved
        obtain ⟨side, value, point'⟩ := r
        cases side with
        | push =>
          have grows := access_grows s.memory (C.index pos)
            (Function.update s.memory.contents (C.index pos) value)
          exact ⟨grows.writes, grows.accesses⟩
        | pop =>
          have grows := access_grows s.memory (C.index pos) s.memory.contents
          exact ⟨grows.writes, grows.accesses⟩
      | storeSequence pos =>
        simp only [System.access, point] at moved
        cases moved
        have grows := append_grows s.memory (.sequence (C.index pos))
          ⟨r.side.handed C pos, View.give ((s.views t).see (.sequence (C.index pos))
            (s.memory.writes (.sequence (C.index pos))).length) (orders.store r.side)
              (.sequence (C.index pos)) (s.memory.writes (.sequence (C.index pos))).length⟩
        exact ⟨grows.writes, grows.accesses⟩

/-- A run that ends within the range of the cursors has been there all the time. -/
theorem reaches_small (onward : (machine Thread T C orders).Reaches Machine.anyStep s s')
    (small : ∀ side, s'.claims side < 2 ^ 63) :
    (machine Thread T C orders).Reaches smallCursors s s' := by
  induction onward with
  | refl => exact .refl
  | tail _ last ih =>
    obtain ⟨command, moved, _⟩ := last
    refine .tail (ih fun side => ?_) ⟨command, moved, small⟩
    have grown := ((next_grows moved).writes (side.cursor C)).length_le
    have bound := small side
    unfold System.claims at bound ⊢
    omega

/-- Both ends of the hand-over from pushes to pops are ordered. -/
def Orders.Forward (orders : Orders) : Prop :=
  orders.store .push = .release ∧ orders.load .pop = .acquire

/-- Both ends of the hand-over back are. -/
def Orders.Backward (orders : Orders) : Prop :=
  orders.store .pop = .release ∧ orders.load .push = .acquire

theorem Orders.eq_source (forward : orders.Forward) (backward : orders.Backward) :
    orders = .source := by
  obtain ⟨load, store⟩ := orders
  obtain ⟨storePush, loadPop⟩ := forward
  obtain ⟨storePop, loadPush⟩ := backward
  have loads : load = fun _ => .acquire := by
    funext side
    cases side
    · exact loadPush
    · exact loadPop
  have stores : store = fun _ => .release := by
    funext side
    cases side
    · exact storePush
    · exact storePop
  rw [loads, stores]
  rfl

omit [DecidableEq Thread] [Inhabited T] in
theorem Filled.available (filled : Filled orders a b n s) (nonempty : 0 < n) :
    ∃ view, (s.memory.writes (.sequence (C.index (.ofNat 0))))[1]? =
      some ⟨Side.pop.ready (.ofNat 0),
        View.give view (orders.store .push) (.sequence (slot C 0)) 1⟩ := by
  obtain ⟨_, _, _, view, sequence⟩ := filled.first nonempty
  refine ⟨view, ?_⟩
  rw [show C.index (.ofNat 0) = slot C 0 from rfl, sequence]
  rfl

/-- Pushes that release and pops that acquire, or the pop races with its push. -/
theorem Filled.forward_race (filled : Filled orders a b n s) (nonempty : 0 < n)
    (weak : ¬ orders.Forward) :
    ∃ s', (machine Thread T C orders).Reaches Machine.anyStep s s' ∧ s'.memory.faults ≠ [] ∧
      ∀ side, s'.claims side ≤ s.claims side + 2 := by
  obtain ⟨accesses, _⟩ := filled.first nonempty
  obtain ⟨view, available⟩ := filled.available nonempty
  have length : (s.memory.writes (Side.pop.cursor C)).length = 0 + 1 :=
    congrArg List.length filled.heads
  have latest : (s.memory.writes (Side.pop.cursor C))[0]? = some ⟨.ofNat 0, fun _ => 0⟩ :=
    congrArg (·[0]?) filled.heads
  have unheard : heard orders .pop (s.views b) (.ofNat 0) 0 1
      (View.give view (orders.store .push) (.sequence (slot C 0)) 1) (.inr (slot C 0)) ≠
        s.memory.accesses (slot C 0) := by
    rw [heard, View.take_give_cell _ weak, View.see_cell, View.see_cell, filled.other, accesses]
    exact Nat.zero_ne_one
  obtain ⟨s', reached, raced, claims⟩ := reaches_race orders .pop (filled.idle b) length latest
    (by rw [filled.other]) available (by rw [filled.other]; exact Nat.zero_le _) unheard
  exact ⟨s', reached, raced, fun side => (claims side).trans (Nat.le_succ _)⟩

/-- Pops that release and pushes that acquire, or the push of the next lap races
with the pop that freed its slot. -/
theorem Filled.backward_race (filled : Filled orders a b C.size s) (apart : b ≠ a)
    (weak : ¬ orders.Backward) :
    ∃ s', (machine Thread T C orders).Reaches Machine.anyStep s s' ∧ s'.memory.faults ≠ [] ∧
      ∀ side, s'.claims side ≤ s.claims side + 2 := by
  obtain ⟨accesses, known, seen, first, sequence⟩ := filled.first C.size_pos
  obtain ⟨view, available⟩ := filled.available C.size_pos
  have length : (s.memory.writes (Side.pop.cursor C)).length = 0 + 1 :=
    congrArg List.length filled.heads
  have latest : (s.memory.writes (Side.pop.cursor C))[0]? = some ⟨.ofNat 0, fun _ => 0⟩ :=
    congrArg (·[0]?) filled.heads
  obtain ⟨s₁, popped, called⟩ := reaches_called orders .pop (default : T) (filled.idle b) length
    latest (by rw [filled.other]) available (by rw [filled.other]; exact Nat.zero_le _)
  have cursor : s₁.memory.writes (Side.push.cursor C) = s.memory.writes .enqueuePos :=
    called.rest (fun same => by cases same) (fun same => by cases same)
  have mine := called.others apart.symm
  have around : C.index (.ofNat C.size) = slot C 0 := slot_eq_iff.mpr (by simp)
  obtain ⟨last, newest⟩ := filled.latest
  obtain ⟨view', stored⟩ := called.sequence
  have freed : (s₁.memory.writes (.sequence (C.index (.ofNat C.size))))[2]? =
      some ⟨Side.push.ready (.ofNat C.size),
        View.give view' (orders.store .pop) (.sequence (slot C 0)) 2⟩ := by
    rw [around]
    refine (congrArg (·[2]?) stored).trans ?_
    rw [show C.index (.ofNat 0) = slot C 0 from rfl, sequence]
    have lap : Side.pop.handed C (.ofNat 0) = Side.push.ready (.ofNat C.size) := by
      show UInt64.ofNat 0 + C.value = UInt64.ofNat C.value.toNat
      rw [UInt64.ofNat_toNat]
      exact UInt64.zero_add _
    rw [lap]
    rfl
  have unheard : heard orders .push (s₁.views a) (.ofNat C.size) C.size 2
      (View.give view' (orders.store .pop) (.sequence (slot C 0)) 2)
        (.inr (C.index (.ofNat C.size))) ≠ s₁.memory.accesses (C.index (.ofNat C.size)) := by
    rw [heard, View.take_give_cell _ weak, View.see_cell, View.see_cell, mine, around, known,
      called.accesses, show C.index (.ofNat 0) = slot C 0 from rfl, Function.update_self, accesses]
    decide
  obtain ⟨s', pushed, raced, claims⟩ := reaches_race orders .push
    (called.threads a (filled.idle a)) (by rw [cursor]; exact filled.length)
    (by rw [cursor]; exact newest) (by rw [mine]; exact filled.own.le) freed
    (by rw [mine, around]; omega) unheard
  refine ⟨s', popped.trans pushed, raced, fun side => (claims side).trans ?_⟩
  cases side with
  | push =>
    unfold System.claims
    rw [cursor]
    exact Nat.add_le_add_left (by decide) _
  | pop =>
    obtain ⟨passed, more⟩ := called.cursor
    unfold System.claims
    rw [more, List.length_append, List.length_singleton]
    omega

/-- **The orders of the ring are the weakest that work.** With two threads or more,
every run is free of races if and only if the sequences are loaded with acquire and
stored with release on both sides. -/
theorem mpmc_race_free_iff_orders [Nontrivial Thread] (several : 2 ≤ C.size)
    (possible : C.size ≤ 2 ^ 62) :
    (∀ s : System Thread T C, (machine Thread T C orders).Reachable smallCursors s →
      s.memory.faults = []) ↔ orders = .source := by
  constructor
  · intro clean
    obtain ⟨b, a, apart⟩ := exists_pair_ne Thread
    obtain ⟨s, reached, filled⟩ := reaches_filled T C orders apart le_rfl
    have claims (side : Side) : s.claims side ≤ C.size := by
      cases side with
      | push => exact (congrArg (· - 1) filled.length).le
      | pop => exact (congrArg (List.length · - 1) filled.heads).le.trans (Nat.zero_le _)
    have races (found : ∃ s', (machine Thread T C orders).Reaches Machine.anyStep s s' ∧
        s'.memory.faults ≠ [] ∧ ∀ side, s'.claims side ≤ s.claims side + 2) : False := by
      obtain ⟨s', onward, raced, more⟩ := found
      refine raced (clean s' (reaches_small (reached.trans onward) fun side => ?_))
      have bound := more side
      have before := claims side
      omega
    by_cases forward : orders.Forward
    · by_cases backward : orders.Backward
      · exact Orders.eq_source forward backward
      · exact (races (filled.backward_race apart backward)).elim
    · exact (races (filled.forward_race C.size_pos forward)).elim
  · rintro rfl s reached
    exact (run_sound several reached).1.clean

/-- A ring of two slots whose loads are all relaxed has a race between two threads. -/
theorem mpmc_race_free_iff_orders_relaxed :
    let two : Capacity := ⟨2, by decide, by decide⟩
    ¬ ∀ s : System Bool ℕ two,
      (machine Bool ℕ two ⟨fun _ => .relaxed, fun _ => .release⟩).Reachable smallCursors s →
        s.memory.faults = [] := by
  intro two clean
  have same := (mpmc_race_free_iff_orders (by decide) (by decide)).mp clean
  cases congrFun (congrArg Orders.load same) .push

end Ringio.MpmcOrders
