import Ringio.MpmcSafety

/-! Exactly-once delivery. With the invariant in hand every claimed pop ticket
returns the value of the push that claimed the same ticket, so what is left is
the record: what each answer says, and what stays true as the run goes on. -/
namespace Ringio.MpmcSystem
open BoundedFifo

variable {Thread T : Type} {C : Capacity} {s s' : System Thread T C}
  {t : Thread} {r : Running T} {id id' ticket ticket' : ℕ} {value out : T}

/-- Every value a pop returned was pushed under the ticket the pop claimed. -/
def Faithful (s : System Thread T C) : Prop :=
  ∀ id ticket out, s.calls id = some ⟨.pop, some ticket, some (.popped (some out))⟩ →
    s.Pushed ticket out

/-- The invariant of a run whose cursors stay below `2 ^ 63`. -/
structure Sound (s : System Thread T C) : Prop where
  accounted : Accounted s
  coherent : Coherent s
  faithful : Faithful s
  enqueued : s.enqueued < 2 ^ 63
  dequeued : s.dequeued < 2 ^ 63

/-- Cursors below `2 ^ 63` leave no room for a thread to fall a word behind. -/
theorem Sound.near (sound : Sound s) (command : Command Thread T) : command.Near (2 ^ 64) s := by
  intro r inside
  have small := C.size_le
  have enqueued := sound.enqueued
  have dequeued := sound.dequeued
  unfold Running.Near
  split
  all_goals first | omega | trivial

theorem Sound.enqueuePos (sound : Sound s) : s.ring.enqueuePos.toNat = s.enqueued := by
  have enqueued := sound.enqueued
  rw [sound.coherent.cursors.enqueue, UInt64.toNat_ofNat', Nat.mod_eq_of_lt (by omega)]

theorem Sound.dequeuePos (sound : Sound s) : s.ring.dequeuePos.toNat = s.dequeued := by
  have dequeued := sound.dequeued
  rw [sound.coherent.cursors.dequeue, UInt64.toNat_ofNat', Nat.mod_eq_of_lt (by omega)]

/-! ## What ownership says about values -/

theorem Accounted.published_lt (accounted : Accounted s) (published : s.Published ticket value) :
    ticket < s.enqueued := by
  obtain ⟨id, entry⟩ := published
  exact (accounted.owned.push ticket).mpr ⟨id, value, _, entry⟩

/-- One ticket, one pushed value. -/
theorem Accounted.pushed_value (accounted : Accounted s) (pushed : s.Pushed ticket value)
    (pushed' : s.Pushed ticket out) : value = out := by
  obtain ⟨id, reply, entry⟩ := pushed
  obtain ⟨id', reply', entry'⟩ := pushed'
  have same := accounted.owned.pushUnique id id' ticket ⟨value, reply, entry⟩ ⟨out, reply', entry'⟩
  subst same
  rw [entry] at entry'
  cases entry'
  rfl

theorem Accounted.published_value (accounted : Accounted s) (published : s.Published ticket value)
    (published' : s.Published ticket out) : value = out :=
  accounted.pushed_value (published.imp fun _ entry => ⟨_, entry⟩)
    (published'.imp fun _ entry => ⟨_, entry⟩)

/-- A ticket still being written has not been published. -/
theorem Accounted.writing_unpublished (accounted : Accounted s) (owner : Writing s.threads t ticket)
    (value : T) : ¬ s.Published ticket value := by
  rintro ⟨id, entry⟩
  obtain ⟨r, value', -, running⟩ := accounted.writing_entry owner
  have same := accounted.owned.pushUnique id r.call ticket ⟨value, _, entry⟩ ⟨value', _, running⟩
  rw [same, running] at entry
  cases entry

/-- A ticket still being read has not been released. -/
theorem Accounted.reading_unreleased (accounted : Accounted s)
    (owner : Reading s.threads t ticket) : ¬ s.Released ticket := by
  rintro ⟨id, reply, entry⟩
  obtain ⟨r, -, running⟩ := accounted.reading_entry owner
  have same := accounted.owned.popUnique id r.call ticket ⟨_, entry⟩ ⟨_, running⟩
  rw [same, running] at entry
  cases entry

/-- A published ticket that no pop has claimed is in its slot. -/
theorem Coherent.waiting (coherent : Coherent s) (accounted : Accounted s)
    (published : s.Published ticket value) (unclaimed : s.dequeued ≤ ticket) :
    s.turn (C.index (.ofNat ticket)) = ticket + 1 ∧
      (s.ring.slots (C.index (.ofNat ticket))).value = value := by
  have bound := coherent.bound
  have claimed := accounted.published_lt published
  obtain ⟨p, slot, state⟩ := coherent.slotAt ticket
  cases state with
  | free turn open_ lap =>
    have same := Cursor.eq_of_mod slot (by omega) (by omega)
    omega
  | writing turn taken held owner =>
    have same : p = ticket := Cursor.eq_of_mod_window slot held (by omega) unclaimed (by omega)
    obtain ⟨t, writing⟩ := owner
    exact absurd published (accounted.writing_unpublished (same ▸ writing) value)
  | published turn taken held element =>
    have same : p = ticket := Cursor.eq_of_mod_window slot held (by omega) unclaimed (by omega)
    subst same
    exact ⟨turn, accounted.published_value element published⟩
  | reading turn popped lap element owner =>
    have same := Cursor.eq_of_mod slot.symm (by omega) (by omega)
    omega

variable [DecidableEq Thread]

/-- A call that has an answer had it before the step, or the step gave it: a
refusal without a ticket, or the hand-over of a claimed slot. -/
theorem closed_origin (accounted : Accounted s) (step : Booked s s') {request : Request T}
    {ticket : Option ℕ} {reply : Reply T}
    (closed : s'.calls id = some ⟨request, ticket, some reply⟩) :
    s.calls id = some ⟨request, ticket, some reply⟩ ∨
    ∃ t r, s.threads t = some r ∧ r.call = id ∧ r.frame.request = request ∧
      (ticket = none ∧ Refused s.ring r.frame reply ∨
        (∃ value pos, r.frame = .push value (.storeSequence pos) ∧ ticket = some r.seen ∧
          reply = .pushed true) ∨
        ∃ pos out, r.frame = .pop (.storeSequence pos out) ∧ ticket = some r.seen ∧
          reply = .popped (some out)) := by
  have open_ {t : Thread} {r : Running T} (inside : s.threads t = some r) :=
    accounted.running t r inside
  cases step with
  | begin idle =>
    by_cases new : id = s.issued
    · subst new
      simp [System.begin] at closed
    · exact .inl (by simpa [System.begin, new] using closed)
  | shift inside => exact .inl closed
  | @claimPush t r value point pos ring inside frame unclaimed =>
    by_cases own : id = r.call
    · subst own
      simp [System.claimPush, System.shift, System.own, open_ inside] at closed
    · exact .inl (by simpa [System.claimPush, System.shift, System.own, own] using closed)
  | @claimPop t r point pos ring inside frame unclaimed =>
    by_cases own : id = r.call
    · subst own
      simp [System.claimPop, System.shift, System.own, open_ inside] at closed
    · exact .inl (by simpa [System.claimPop, System.shift, System.own, own] using closed)
  | @refuse t r ring reply' inside unclaimed reason =>
    by_cases own : id = r.call
    · subst own
      simp only [System.finish, Function.update_self, open_ inside, unclaimed, Option.map_some,
        Option.some.injEq, Call.mk.injEq] at closed
      obtain ⟨asked, unticketed, rfl⟩ := closed
      exact .inr ⟨t, r, inside, rfl, asked, .inl ⟨unticketed.symm, reason⟩⟩
    · exact .inl (by simpa [System.finish, own] using closed)
  | @publish t r value pos ring turn inside frame =>
    by_cases own : id = r.call
    · subst own
      simp only [System.handOver, System.finish, Function.update_self, open_ inside,
        Option.map_some, Option.some.injEq, Call.mk.injEq] at closed
      simp only [frame, Frame.claimed, if_true] at closed
      exact .inr ⟨t, r, inside, rfl, by rw [frame]; exact closed.1,
        .inr (.inl ⟨value, pos, frame, closed.2.1.symm, closed.2.2.symm⟩)⟩
    · exact .inl (by simpa [System.handOver, System.finish, own] using closed)
  | @release t r out pos ring turn inside frame =>
    by_cases own : id = r.call
    · subst own
      simp only [System.handOver, System.finish, Function.update_self, open_ inside,
        Option.map_some, Option.some.injEq, Call.mk.injEq] at closed
      simp only [frame, Frame.claimed, if_true] at closed
      exact .inr ⟨t, r, inside, rfl, by rw [frame]; exact closed.1,
        .inr (.inr ⟨pos, out, frame, closed.2.1.symm, closed.2.2.symm⟩)⟩
    · exact .inl (by simpa [System.handOver, System.finish, own] using closed)

/-- Only a release answers a pop with a value, and it answers with the value
its frame is sound about. -/
theorem step_faithful (faithful : Faithful s) (accounted : Accounted s) (coherent : Coherent s)
    (step : Booked s s') : Faithful s' := by
  intro id ticket out closed
  refine pushed_step accounted step ?_
  rcases closed_origin accounted step closed with
    before |
    ⟨t, r, inside, -, -, ⟨none, -⟩ | ⟨_, _, _, _, wrong⟩ | ⟨pos, value, frame, own, answer⟩⟩
  · exact faithful id ticket out before
  · cases none
  · cases wrong
  · have sound := coherent.frames t r inside
    simp only [FrameSound, frame] at sound
    cases own
    cases answer
    exact sound.2.2

/-- Each cursor moves by at most one ticket a step. -/
theorem cursor_step (step : Booked s s') :
    (s.enqueued ≤ s'.enqueued ∧ s'.enqueued ≤ s.enqueued + 1) ∧
      s.dequeued ≤ s'.dequeued ∧ s'.dequeued ≤ s.dequeued + 1 := by
  cases step with
  | claimPush => exact ⟨⟨Nat.le_succ _, le_rfl⟩, le_rfl, Nat.le_succ _⟩
  | claimPop => exact ⟨⟨le_rfl, Nat.le_succ _⟩, Nat.le_succ _, le_rfl⟩
  | begin | shift | refuse | publish | release =>
    exact ⟨⟨le_rfl, Nat.le_succ _⟩, le_rfl, Nat.le_succ _⟩

theorem step_sound {command : Command Thread T} (several : 2 ≤ C.size) (sound : Sound s)
    (moved : s.next command = some s') (small : smallCursors s command s') : Sound s' := by
  have step := booked moved
  have coherent := step_coherent sound.coherent sound.accounted (sound.near command) several moved
  obtain ⟨⟨-, enqueuedNext⟩, -, dequeuedNext⟩ := cursor_step step
  have enqueued := sound.enqueued
  have dequeued := sound.dequeued
  obtain ⟨smallEnqueue, smallDequeue⟩ := small
  rw [coherent.cursors.enqueue, UInt64.toNat_ofNat', Nat.mod_eq_of_lt (by omega)] at smallEnqueue
  rw [coherent.cursors.dequeue, UInt64.toNat_ofNat', Nat.mod_eq_of_lt (by omega)] at smallDequeue
  exact ⟨step_accounted sound.accounted step, coherent,
    step_faithful sound.faithful sound.accounted sound.coherent step, smallEnqueue, smallDequeue⟩

/-- Every run with cursors below `2 ^ 63`, by any number of threads, stays
sound. -/
theorem run_sound [Inhabited T] (several : 2 ≤ C.size)
    (reached : (machine Thread T C).Reachable smallCursors s) : Sound s := by
  refine reached.invariant ?_ (step_sound several)
  exact ⟨start_accounted, start_coherent, nofun, Nat.two_pow_pos 63, Nat.two_pow_pos 63⟩

/-! ## From claim to return -/

/-- The call has returned this answer, or its thread alone needs at most two
more accesses to return it. -/
def Answers [Inhabited T] (s : System Thread T C) (id : ℕ) (reply : Reply T) : Prop :=
  (∃ request ticket, s.calls id = some ⟨request, ticket, some reply⟩) ∨
    ∃ t steps s', steps ≤ 2 ∧
      (machine Thread T C).exec s (List.replicate steps (.run t false)) = some s' ∧
      ∃ request ticket, s'.calls id = some ⟨request, ticket, some reply⟩

private theorem release_exec [Inhabited T] {pos : UInt64} (accounted : Accounted s)
    (inside : s.threads t = some r) (frame : r.frame = .pop (.storeSequence pos out)) :
    ∃ s', (machine Thread T C).exec s [.run t false] = some s' ∧
      s'.calls r.call = some ⟨.pop, some r.seen, some (.popped (some out))⟩ := by
  have entry := accounted.running t r inside
  refine ⟨_, by simp only [Machine.exec, machine, System.next, System.run, inside, frame,
    MpmcRing.popStep, System.afterPop, Option.bind_some]; rfl, ?_⟩
  simp [System.handOver, System.finish, entry, frame, Frame.request, Frame.claimed]

private theorem read_exec [Inhabited T] {pos : UInt64} (accounted : Accounted s)
    (inside : s.threads t = some r) (frame : r.frame = .pop (.readValue pos)) :
    ∃ s', (machine Thread T C).exec s [.run t false, .run t false] = some s' ∧
      s'.calls r.call =
        some ⟨.pop, some r.seen, some (.popped (some (s.ring.slot pos).value))⟩ := by
  have entry := accounted.running t r inside
  have moved : s.next (.run t false) = some ({ s with ring := s.ring }.shift t
      ⟨r.call, .pop (.storeSequence pos (s.ring.slot pos).value), r.seen⟩) := by
    simp only [System.next, System.run, inside, frame, MpmcRing.popStep, System.afterPop]
  obtain ⟨s', ran, answered⟩ := release_exec (step_accounted accounted (booked moved))
    (Function.update_self ..) rfl
  exact ⟨s', (congrArg (Option.bind · _) moved).trans ran, answered⟩

/-- The pop that claimed a ticket returns what was pushed under it. -/
theorem Sound.pop_answers [Inhabited T] (several : 2 ≤ C.size) (sound : Sound s)
    (claimed : s.ClaimedPop id ticket) :
    ∃ value, s.Pushed ticket value ∧ Answers s id (.popped (some value)) := by
  obtain ⟨reply, entry⟩ := claimed
  cases reply with
  | some reply =>
    rcases sound.accounted.answered _ _ _ _ entry with ⟨_, wrong, _⟩ | ⟨out, -, rfl, given⟩
    · cases wrong
    · obtain ⟨value, rfl⟩ := Option.isSome_iff_exists.mp given
      exact ⟨value, sound.faithful _ _ _ entry, .inl ⟨_, _, entry⟩⟩
  | none =>
    obtain ⟨t, r, inside, rfl⟩ := sound.accounted.pending _ _ _ entry
    have running := sound.accounted.running t r inside
    have frames := sound.coherent.frames t r inside
    rw [entry] at running
    obtain ⟨call, frame, seen⟩ := r
    cases frame with
    | push value point => cases running
    | pop point =>
      cases point with
      | loadPos | loadSequence | exchange => cases running
      | readValue pos =>
        cases running
        obtain ⟨read, reader⟩ := frames
        obtain ⟨pusher, pushed⟩ := sound.coherent.reader_value several reader
        obtain ⟨s', ran, answered⟩ := read_exec sound.accounted inside rfl
        rw [MpmcRing.slot, read] at answered
        exact ⟨_, ⟨pusher, _, pushed⟩, .inr ⟨t, 2, s', le_rfl, ran, _, _, answered⟩⟩
      | storeSequence pos out =>
        cases running
        obtain ⟨s', ran, answered⟩ := release_exec sound.accounted inside rfl
        exact ⟨out, frames.2.2, .inr ⟨t, 1, s', by decide, ran, _, _, answered⟩⟩

/-! ## Tickets follow real time -/

private theorem run_ticketed [Inhabited T] (several : 2 ≤ C.size) (sound : Sound s)
    (onward : (machine Thread T C).Reaches smallCursors s s') {request : Request T}
    (owned : s.Ticketed id request ticket) : Sound s' ∧ s'.Ticketed id request ticket := by
  refine onward.preserves (P := fun x => Sound x ∧ x.Ticketed id request ticket) ?_ ⟨sound, owned⟩
  rintro _ _ _ ⟨before, held⟩ moved small
  exact ⟨step_sound several before moved small, ticketed_step before.accounted (booked moved) held⟩

/-- A ticket claimed by a call that starts after this state lies beyond the
cursor of this state. -/
theorem Sound.later_ticket [Inhabited T] (several : 2 ≤ C.size) (sound : Sound s)
    (onward : (machine Thread T C).Reaches smallCursors s s') (later : s.issued ≤ id)
    (claimed : s'.ClaimedPush id ticket) : s.enqueued ≤ ticket := by
  by_contra taken
  obtain ⟨owner, value, owned⟩ := (sound.accounted.owned.push ticket).mp (Nat.lt_of_not_le taken)
  obtain ⟨after, still⟩ := run_ticketed several sound onward owned
  have same := after.accounted.owned.pushUnique owner id ticket ⟨value, still⟩ claimed
  obtain ⟨reply, entry⟩ := owned
  rw [same, sound.accounted.fresh id later] at entry
  cases entry

/-- **Exactly-once delivery in ticket order.** In every state reached by any
number of threads with cursors below `2 ^ 63`, every ticket below a cursor has
one owner on that side; the pop that claimed a ticket returns, within two more
accesses of its own, the value pushed under it; and a value was returned only
so. Hence a push that returned true is in its slot until exactly one pop claims
it, and tickets follow the order of calls that do not overlap. -/
theorem delivers_exactly_once [Inhabited T] (several : 2 ≤ C.size)
    (reached : (machine Thread T C).Reachable smallCursors s) :
    (∀ ticket < s.ring.enqueuePos.toNat, ∃! id, s.ClaimedPush id ticket) ∧
    (∀ ticket < s.ring.dequeuePos.toNat, ∃! id, s.ClaimedPop id ticket) ∧
    (∀ id ticket, s.ClaimedPop id ticket →
      ∃ value, s.Pushed ticket value ∧ Answers s id (.popped (some value))) ∧
    (∀ id ticket out, s.calls id = some ⟨.pop, ticket, some (.popped (some out))⟩ →
      ∃ k, ticket = some k ∧ s.Pushed k out) ∧
    (∀ id value ticket, s.calls id = some ⟨.push value, ticket, some (.pushed true)⟩ →
      ∃ k, ticket = some k ∧ k < s.ring.enqueuePos.toNat ∧
        (s.ring.dequeuePos.toNat ≤ k → (s.ring.slot (.ofNat k)).sequence.toNat = k + 1 ∧
          (s.ring.slot (.ofNat k)).value = value) ∧
        (k < s.ring.dequeuePos.toNat → ∃! pop, s.ClaimedPop pop k ∧
          Answers s pop (.popped (some value)))) ∧
    (∀ s' a b value k k', (machine Thread T C).Reaches smallCursors s s' →
      s.calls a = some ⟨.push value, some k, some (.pushed true)⟩ → s.issued ≤ b →
      s'.ClaimedPush b k' → k < k') := by
  have sound := run_sound several reached
  have owned := sound.accounted.owned
  rw [sound.enqueuePos, sound.dequeuePos]
  refine ⟨?_, ?_, ?_, ?_, ?_, ?_⟩
  · intro ticket below
    obtain ⟨id, claimed⟩ := (owned.push ticket).mp below
    exact ⟨id, claimed, fun id' claimed' => owned.pushUnique id' id ticket claimed' claimed⟩
  · intro ticket below
    obtain ⟨id, claimed⟩ := (owned.pop ticket).mp below
    exact ⟨id, claimed, fun id' claimed' => owned.popUnique id' id ticket claimed' claimed⟩
  · exact fun id ticket claimed => sound.pop_answers several claimed
  · intro id ticket out closed
    rcases sound.accounted.answered _ _ _ _ closed with ⟨_, wrong, _⟩ | ⟨given, -, same, some_⟩
    · cases wrong
    · cases same
      obtain ⟨k, rfl⟩ := Option.isSome_iff_exists.mp some_.symm
      exact ⟨k, rfl, sound.faithful id k out closed⟩
  · intro id value ticket closed
    rcases sound.accounted.answered _ _ _ _ closed with ⟨_, -, same⟩ | ⟨_, wrong, _⟩
    · obtain ⟨k, rfl⟩ := Option.isSome_iff_exists.mp (Reply.pushed.inj same).symm
      have published : s.Published k value := ⟨id, closed⟩
      have below := sound.accounted.published_lt published
      refine ⟨k, rfl, below, fun waiting => ?_, fun popped => ?_⟩
      · obtain ⟨turn, held⟩ := sound.coherent.waiting sound.accounted published waiting
        have small := sound.enqueued
        rw [MpmcRing.slot, sound.coherent.cursors.sequence, turn, UInt64.toNat_ofNat',
          Nat.mod_eq_of_lt (by omega)]
        exact ⟨rfl, held⟩
      · obtain ⟨pop, claimed⟩ := (owned.pop k).mp popped
        obtain ⟨given, pushed, answers⟩ := sound.pop_answers several claimed
        have same := sound.accounted.pushed_value pushed ⟨id, _, closed⟩
        exact ⟨pop, ⟨claimed, same ▸ answers⟩,
          fun pop' other => owned.popUnique pop' pop k other.1 claimed⟩
    · cases wrong
  · intro s' a b value k k' onward closed later claimed
    have below := sound.accounted.published_lt ⟨a, closed⟩
    exact below.trans_le (sound.later_ticket several onward later claimed)

/-- Two producers overlap and the second publishes first, then a consumer
claims the first ticket and stops before its copy. -/
def overlapping : List (Command (Fin 4) Bool) :=
  [.call 0 (.push true), .call 1 (.push false), .run 0 false, .run 0 false, .run 0 true,
    .run 0 false, .run 0 false, .run 1 false, .run 1 false, .run 1 false, .run 1 false,
    .run 1 false, .run 0 false, .run 0 false, .call 2 .pop, .run 2 false, .run 2 false,
    .run 2 false]

/-- There each ticket has its owner and the consumer is bound to return what
the first ticket's producer pushed. -/
theorem delivers_exactly_once_overlapping :
    let two := machine (Fin 4) Bool ⟨2, by decide, by decide⟩
    ∃ s, two.execWithin smallCursors two.start overlapping = some s ∧
      s.ring.enqueuePos.toNat = 2 ∧ s.ring.dequeuePos.toNat = 1 ∧
      (∃! id, s.ClaimedPush id 1) ∧
      ∃ value, s.Pushed 0 value ∧ Answers s 2 (.popped (some value)) := by
  intro two
  have ends : (two.execWithin smallCursors two.start overlapping).map (fun s =>
      (s.ring.enqueuePos.toNat, s.ring.dequeuePos.toNat, s.calls 2)) =
      some (2, 1, some ⟨.pop, some 0, none⟩) := by decide
  obtain ⟨s, ran, shape⟩ := Option.map_eq_some_iff.mp ends
  simp only [Prod.mk.injEq] at shape
  obtain ⟨enqueue, dequeue, entry⟩ := shape
  have results := delivers_exactly_once (by decide) (Machine.execWithin_reaches overlapping ran)
  exact ⟨s, ran, enqueue, dequeue, results.1 1 (by rw [enqueue]; decide),
    results.2.2.1 2 0 ⟨none, entry⟩⟩

end Ringio.MpmcSystem
