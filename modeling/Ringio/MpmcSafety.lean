import Ringio.MpmcInvariant

/-! Every step keeps the invariant. A claim succeeds only on a slot whose
sequence says it is that ticket's turn, and from then on the slot is out of
everybody else's reach until its owner stores the next sequence. -/
namespace Ringio.MpmcSystem
open BoundedFifo

variable {Thread T : Type} {C : Capacity} {s s' : System Thread T C}
  {t t' : Thread} {r : Running T} {value out : T} {pos : UInt64} {ticket ticket' : ℕ}

/-! ## One owner for each slot -/

/-- A thread with a push ticket is in a call the record shows as its owner. -/
theorem Accounted.writing_entry (accounted : Accounted s) (owner : Writing s.threads t ticket) :
    ∃ r value, s.threads t = some r ∧ s.calls r.call = some ⟨.push value, some ticket, none⟩ := by
  obtain ⟨r, value, point, inside, frame, claimed, seen⟩ := owner
  have entry := accounted.running t r inside
  rw [claimed, if_pos rfl, seen, frame] at entry
  exact ⟨r, value, inside, entry⟩

theorem Accounted.reading_entry (accounted : Accounted s) (owner : Reading s.threads t ticket) :
    ∃ r, s.threads t = some r ∧ s.calls r.call = some ⟨.pop, some ticket, none⟩ := by
  obtain ⟨r, point, inside, frame, claimed, seen⟩ := owner
  have entry := accounted.running t r inside
  rw [claimed, if_pos rfl, seen, frame] at entry
  exact ⟨r, inside, entry⟩

/-- A push ticket is in one thread's hands. -/
theorem Accounted.writer_unique (accounted : Accounted s) (mine : Writing s.threads t ticket)
    (theirs : Writing s.threads t' ticket) : t = t' := by
  obtain ⟨r, value, inside, entry⟩ := accounted.writing_entry mine
  obtain ⟨r', value', inside', entry'⟩ := accounted.writing_entry theirs
  exact accounted.distinct _ _ _ _ inside inside'
    (accounted.owned.pushUnique _ _ ticket ⟨value, _, entry⟩ ⟨value', _, entry'⟩)

/-- A pop ticket is in one thread's hands. -/
theorem Accounted.reader_unique (accounted : Accounted s) (mine : Reading s.threads t ticket)
    (theirs : Reading s.threads t' ticket) : t = t' := by
  obtain ⟨r, inside, entry⟩ := accounted.reading_entry mine
  obtain ⟨r', inside', entry'⟩ := accounted.reading_entry theirs
  exact accounted.distinct _ _ _ _ inside inside'
    (accounted.owned.popUnique _ _ ticket ⟨_, entry⟩ ⟨_, entry'⟩)

/-- Two writers of one slot have one ticket. -/
theorem WriterSound.same_slot (mine : WriterSound s ticket) (theirs : WriterSound s ticket')
    (same : C.index (.ofNat ticket) = C.index (.ofNat ticket')) : ticket = ticket' := by
  rw [← mine.turn, same, theirs.turn]

/-- Two readers of one slot have one ticket. -/
theorem ReaderSound.same_slot (mine : ReaderSound s ticket) (theirs : ReaderSound s ticket')
    (same : C.index (.ofNat ticket) = C.index (.ofNat ticket')) : ticket = ticket' := by
  have turns := mine.turn
  rw [same, theirs.turn] at turns
  omega

/-- A writer and a reader are never on one slot. -/
theorem WriterSound.apart (several : 2 ≤ C.size) (mine : WriterSound s ticket)
    (theirs : ReaderSound s ticket') : C.index (.ofNat ticket) ≠ C.index (.ofNat ticket') := by
  intro same
  have turns := mine.turn
  rw [same, theirs.turn] at turns
  rw [C.index_eq_iff, ← turns] at same
  exact Cursor.succ_mod_ne several ticket' same

/-- What the frame of a thread with a push ticket says about its slot. -/
theorem Coherent.writer (coherent : Coherent s) (owner : Writing s.threads t ticket) :
    WriterSound s ticket := by
  obtain ⟨⟨call, frame, seen⟩, value, point, inside, rfl, claimed, rfl⟩ := owner
  have sound := coherent.frames t _ inside
  cases point with
  | writeValue pos => exact sound.2
  | storeSequence pos => exact sound.2.1
  | loadPos | loadSequence | exchange => cases claimed

theorem Coherent.reader (coherent : Coherent s) (owner : Reading s.threads t ticket) :
    ReaderSound s ticket := by
  obtain ⟨⟨call, frame, seen⟩, point, inside, rfl, claimed, rfl⟩ := owner
  have sound := coherent.frames t _ inside
  cases point with
  | readValue pos => exact sound.2
  | storeSequence pos out => exact sound.2.1
  | loadPos | loadSequence | exchange => cases claimed

/-- A thread with a ticket is writing or reading its slot. -/
theorem claimed_cases (inside : s.threads t = some r) (claimed : r.frame.claimed = true) :
    Writing s.threads t r.seen ∨ Reading s.threads t r.seen := by
  cases frame : r.frame with
  | push value point => exact .inl ⟨r, value, point, inside, frame, claimed, rfl⟩
  | pop point => exact .inr ⟨r, point, inside, frame, claimed, rfl⟩

/-- **Exclusive ownership.** Two threads with tickets of one slot are one
thread, whichever side each of them is on. -/
theorem Coherent.exclusive (coherent : Coherent s) (accounted : Accounted s) (several : 2 ≤ C.size)
    {r' : Running T} (inside : s.threads t = some r) (inside' : s.threads t' = some r')
    (claimed : r.frame.claimed = true) (claimed' : r'.frame.claimed = true)
    (same : C.index (.ofNat r.seen) = C.index (.ofNat r'.seen)) : t = t' := by
  rcases claimed_cases inside claimed with mine | mine <;>
    rcases claimed_cases inside' claimed' with theirs | theirs
  · have ticket := (coherent.writer mine).same_slot (coherent.writer theirs) same
    exact accounted.writer_unique mine (ticket ▸ theirs)
  · exact absurd same ((coherent.writer mine).apart several (coherent.reader theirs))
  · exact absurd same.symm ((coherent.writer theirs).apart several (coherent.reader mine))
  · have ticket := (coherent.reader mine).same_slot (coherent.reader theirs) same
    exact accounted.reader_unique mine (ticket ▸ theirs)

/-! ## Claiming -/

private theorem idle_of_unclaimed (inside : s.threads t = some r)
    (unclaimed : r.frame.claimed = false) (r' : Running T) (inside' : s.threads t = some r') :
    r'.frame.claimed = false := by
  rw [inside] at inside'
  cases inside'
  exact unclaimed

variable [DecidableEq Thread]

/-- A push claims the ticket at the enqueue cursor. The sequence it loaded was
the ticket's own, so the slot has been free for it ever since. -/
theorem Coherent.claimPush (coherent : Coherent s) (accounted : Accounted s) (several : 2 ≤ C.size)
    (inside : s.threads t = some r) (frame : r.frame = .push value (.exchange pos))
    (current : s.ring.enqueuePos = pos) (fresh : s.enqueued + C.size ≤ r.seen + 2 ^ 64) :
    Coherent (s.claimPush t r value { s.ring with enqueuePos := pos + 1 } pos) := by
  have unclaimed : r.frame.claimed = false := by rw [frame]; rfl
  have step : Booked s (s.claimPush t r value { s.ring with enqueuePos := pos + 1 } pos) :=
    .claimPush inside frame unclaimed
  have sound := coherent.frames t r inside
  simp only [FrameSound, frame] at sound
  obtain ⟨read, past, reached⟩ := sound
  have order := coherent.order
  have positive := C.size_pos
  have own : s.enqueued = r.seen := by
    have same : UInt64.ofNat s.enqueued = UInt64.ofNat r.seen := by
      rw [← coherent.cursors.enqueue, current, read]
    exact (Cursor.ofNat_inj (by omega) (by omega)).mp same
  rw [← own] at read reached
  obtain ⟨turn, room⟩ := coherent.free_at_enqueue several reached
  have elsewhere {i : Fin C.size} {p : ℕ} (slot : p % C.size = i)
      (other : i ≠ C.index (.ofNat s.enqueued)) : p % C.size ≠ s.enqueued % C.size :=
    fun same => other (Fin.ext (by rw [← slot, same, C.index_ofNat]))
  refine ⟨⟨?_, coherent.cursors.dequeue, coherent.cursors.sequence⟩, Nat.le_succ_of_le order, room,
    ?_, ?_⟩
  · show pos + 1 = .ofNat (s.enqueued + 1)
    rw [read, Cursor.ofNat_add_one]
  · intro t' r' inside'
    by_cases mine : t' = t
    · subst mine
      simp only [System.claimPush, System.shift, Function.update_self] at inside'
      cases inside'
      exact ⟨read, turn, Nat.lt_succ_self _, order⟩
    · simp only [System.claimPush, System.shift, Function.update_of_ne mine] at inside'
      refine (coherent.frames t' r' inside').transfer (Nat.le_succ _) le_rfl (fun _ => le_rfl)
        (fun _ _ => pushed_step accounted step) (fun _ _ _ _ ok => ⟨?_, rfl⟩) fun _ _ _ ok => ?_
      · exact ⟨ok.turn, Nat.lt_succ_of_lt ok.claimed, ok.unpopped⟩
      · refine ⟨ok.turn, ok.popped, Nat.lt_of_le_of_ne ok.lap fun last => ?_⟩
        have same : C.index (.ofNat s.enqueued) = C.index (.ofNat r'.seen) := by
          rw [C.index_eq_iff, last, Nat.add_mod_right]
        have turns := ok.turn
        rw [← same, turn] at turns
        omega
  · intro i
    by_cases here : i = C.index (.ofNat s.enqueued)
    · subst here
      exact ⟨s.enqueued, (C.index_ofNat _).symm, .writing turn (Nat.lt_succ_self _) order
        ⟨t, _, value, _, Function.update_self .., rfl, rfl, rfl⟩⟩
    · obtain ⟨p, slot, state⟩ := coherent.slots i
      have apart := elsewhere slot here
      refine ⟨p, slot, state.transfer rfl rfl (fun _ _ => published_step accounted step)
        (Nat.le_succ _) le_rfl (fun ahead => ?_) (fun held _ => held) (fun _ near => ?_)
        (fun _ => writing_update (idle_of_unclaimed inside unclaimed))
        (fun _ => reading_update (idle_of_unclaimed inside unclaimed))⟩
      · exact Nat.lt_of_le_of_ne ahead fun same => apart (by rw [same])
      · refine Nat.lt_of_le_of_ne near fun same => apart ?_
        rw [same, Nat.add_mod_right]

/-- A pop claims the ticket at the dequeue cursor. The sequence it loaded was
one past the ticket, so the slot holds the ticket's published element. -/
theorem Coherent.claimPop (coherent : Coherent s) (accounted : Accounted s)
    (inside : s.threads t = some r) (frame : r.frame = .pop (.exchange pos))
    (current : s.ring.dequeuePos = pos) (fresh : s.dequeued + C.size ≤ r.seen + 2 ^ 64) :
    Coherent (s.claimPop t r { s.ring with dequeuePos := pos + 1 } pos) := by
  have unclaimed : r.frame.claimed = false := by rw [frame]; rfl
  have step : Booked s (s.claimPop t r { s.ring with dequeuePos := pos + 1 } pos) :=
    .claimPop inside frame unclaimed
  have sound := coherent.frames t r inside
  simp only [FrameSound, frame] at sound
  obtain ⟨read, past, reached⟩ := sound
  have bound := coherent.bound
  have positive := C.size_pos
  have own : s.dequeued = r.seen := by
    have same : UInt64.ofNat s.dequeued = UInt64.ofNat r.seen := by
      rw [← coherent.cursors.dequeue, current, read]
    exact (Cursor.ofNat_inj (by omega) (by omega)).mp same
  rw [← own] at read reached
  obtain ⟨turn, nonempty, element⟩ := coherent.published_at_dequeue reached
  refine ⟨⟨coherent.cursors.enqueue, ?_, coherent.cursors.sequence⟩, nonempty, ?_, ?_, ?_⟩
  · show pos + 1 = .ofNat (s.dequeued + 1)
    rw [read, Cursor.ofNat_add_one]
  · show s.enqueued ≤ s.dequeued + 1 + C.size
    omega
  · intro t' r' inside'
    by_cases mine : t' = t
    · subst mine
      simp only [System.claimPop, System.shift, Function.update_self] at inside'
      cases inside'
      exact ⟨read, turn, Nat.lt_succ_self _, bound⟩
    · simp only [System.claimPop, System.shift, Function.update_of_ne mine] at inside'
      refine (coherent.frames t' r' inside').transfer le_rfl (Nat.le_succ _) (fun _ => le_rfl)
        (fun _ _ => pushed_step accounted step) (fun _ _ _ _ ok => ⟨?_, rfl⟩) fun _ _ _ ok => ?_
      · refine ⟨ok.turn, ok.claimed, Nat.lt_of_le_of_ne ok.unpopped fun same => ?_⟩
        have turns := ok.turn
        rw [← same, turn] at turns
        omega
      · exact ⟨ok.turn, Nat.lt_succ_of_lt ok.popped, ok.lap⟩
  · intro i
    by_cases here : i = C.index (.ofNat s.dequeued)
    · subst here
      exact ⟨s.dequeued, (C.index_ofNat _).symm, .reading turn (Nat.lt_succ_self _) bound
        (published_step accounted step element)
        ⟨t, _, _, Function.update_self .., rfl, rfl, rfl⟩⟩
    · obtain ⟨p, slot, state⟩ := coherent.slots i
      refine ⟨p, slot, state.transfer rfl rfl (fun _ _ => published_step accounted step)
        le_rfl (Nat.le_succ _) id (fun held _ => Nat.lt_of_le_of_ne held fun same => ?_)
        (fun _ near => near) (fun _ => writing_update (idle_of_unclaimed inside unclaimed))
        (fun _ => reading_update (idle_of_unclaimed inside unclaimed))⟩
      exact here (Fin.ext (by rw [← slot, ← same, C.index_ofNat]))

/-! ## Using the claimed slot -/

/-- A thread that keeps its ticket keeps its slot. -/
private theorem writing_shift {threads : Thread → Option (Running T)} {r' : Running T}
    (inside : threads t = some r) (request : r'.frame.request = r.frame.request)
    (claimed : r'.frame.claimed = r.frame.claimed) (seen : r'.seen = r.seen)
    (owner : Writing threads t' ticket) :
    Writing (Function.update threads t (some r')) t' ticket := by
  obtain ⟨held, value, point, inside', frame, holds, mine⟩ := owner
  by_cases same : t' = t
  · subst same
    rw [inside] at inside'
    cases inside'
    rw [frame] at request
    cases kind : r'.frame with
    | push value' point' =>
      exact ⟨r', value', point', Function.update_self .., kind, claimed.trans holds,
        seen.trans mine⟩
    | pop point' => rw [kind] at request; cases request
  · exact ⟨held, value, point, by rw [Function.update_of_ne same]; exact inside', frame, holds,
      mine⟩

private theorem reading_shift {threads : Thread → Option (Running T)} {r' : Running T}
    (inside : threads t = some r) (request : r'.frame.request = r.frame.request)
    (claimed : r'.frame.claimed = r.frame.claimed) (seen : r'.seen = r.seen)
    (owner : Reading threads t' ticket) :
    Reading (Function.update threads t (some r')) t' ticket := by
  obtain ⟨held, point, inside', frame, holds, mine⟩ := owner
  by_cases same : t' = t
  · subst same
    rw [inside] at inside'
    cases inside'
    rw [frame] at request
    cases kind : r'.frame with
    | push value' point' => rw [kind] at request; cases request
    | pop point' =>
      exact ⟨r', point', Function.update_self .., kind, claimed.trans holds, seen.trans mine⟩
  · exact ⟨held, point, by rw [Function.update_of_ne same]; exact inside', frame, holds, mine⟩

/-- A writer fills its slot; no other thread has a ticket of that slot. -/
theorem Coherent.write (coherent : Coherent s) (accounted : Accounted s) (several : 2 ≤ C.size)
    (inside : s.threads t = some r) (frame : r.frame = .push value (.writeValue pos)) :
    Coherent ({ s with ring := s.ring.writeValue pos value }.shift t
      ⟨r.call, .push value (.storeSequence pos), r.seen⟩) := by
  have claimed : r.frame.claimed = true := by rw [frame]; rfl
  have step : Booked s ({ s with ring := s.ring.writeValue pos value }.shift t
      ⟨r.call, .push value (.storeSequence pos), r.seen⟩) :=
    .shift inside rfl (by rw [frame]; rfl) claimed.symm fun _ => rfl
  have sound := coherent.frames t r inside
  simp only [FrameSound, frame] at sound
  obtain ⟨read, writer⟩ := sound
  have elsewhere {i : Fin C.size} (other : i ≠ C.index (.ofNat r.seen)) :
      (s.ring.writeValue pos value).slots i = s.ring.slots i := by
    rw [read, MpmcRing.writeValue]
    exact Function.update_of_ne other _ _
  refine ⟨⟨coherent.cursors.enqueue, coherent.cursors.dequeue, ?_⟩, coherent.order, coherent.bound,
    ?_, ?_⟩
  · intro i
    by_cases here : i = C.index pos
    · subst here
      simpa [MpmcRing.writeValue, MpmcRing.slot, System.shift] using
        coherent.cursors.sequence (C.index pos)
    · simpa [MpmcRing.writeValue, System.shift, here] using coherent.cursors.sequence i
  · intro t' r' inside'
    by_cases mine : t' = t
    · subst mine
      simp only [System.shift, Function.update_self] at inside'
      cases inside'
      exact ⟨read, ⟨writer.turn, writer.claimed, writer.unpopped⟩,
        by simp [read, MpmcRing.writeValue, System.shift]⟩
    · simp only [System.shift, Function.update_of_ne mine] at inside'
      refine (coherent.frames t' r' inside').transfer le_rfl le_rfl (fun _ => le_rfl)
        (fun _ _ => pushed_step accounted step) (fun _ _ _ holds ok => ⟨?_, ?_⟩) fun _ _ _ ok => ?_
      · exact ⟨ok.turn, ok.claimed, ok.unpopped⟩
      · refine congrArg Slot.value (elsewhere fun same => mine ?_)
        exact coherent.exclusive accounted several inside' inside holds claimed same
      · exact ⟨ok.turn, ok.popped, ok.lap⟩
  · intro i
    by_cases here : i = C.index (.ofNat r.seen)
    · subst here
      exact ⟨r.seen, (C.index_ofNat _).symm, .writing writer.turn writer.claimed writer.unpopped
        ⟨t, _, value, _, Function.update_self .., rfl, rfl, rfl⟩⟩
    · obtain ⟨p, slot, state⟩ := coherent.slots i
      exact ⟨p, slot, state.transfer rfl (congrArg Slot.value (elsewhere here))
        (fun _ _ => published_step accounted step) le_rfl le_rfl id (fun held _ => held)
        (fun _ near => near)
        (fun _ => writing_shift inside (by rw [frame]; rfl) claimed.symm rfl)
        (fun _ => reading_shift inside (by rw [frame]; rfl) claimed.symm rfl)⟩

/-- A reader copies its slot's value out: its own ticket's. -/
theorem Coherent.read (coherent : Coherent s) (accounted : Accounted s) (several : 2 ≤ C.size)
    (inside : s.threads t = some r) (frame : r.frame = .pop (.readValue pos)) :
    Coherent ({ s with ring := s.ring }.shift t
      ⟨r.call, .pop (.storeSequence pos (s.ring.slot pos).value), r.seen⟩) := by
  have claimed : r.frame.claimed = true := by rw [frame]; rfl
  have step : Booked s ({ s with ring := s.ring }.shift t
      ⟨r.call, .pop (.storeSequence pos (s.ring.slot pos).value), r.seen⟩) :=
    .shift inside rfl (by rw [frame]; rfl) claimed.symm fun _ => rfl
  have sound := coherent.frames t r inside
  simp only [FrameSound, frame] at sound
  obtain ⟨read, reader⟩ := sound
  refine coherent.reframe rfl rfl rfl rfl (fun _ _ => pushed_step accounted step)
    (fun _ _ => published_step accounted step)
    (fun _ _ => writing_shift inside (by rw [frame]; rfl) claimed.symm rfl)
    (fun _ _ => reading_shift inside (by rw [frame]; rfl) claimed.symm rfl) ?_
  intro t' r' inside'
  by_cases mine : t' = t
  · subst mine
    simp only [System.shift, Function.update_self] at inside'
    cases inside'
    obtain ⟨id, published⟩ := coherent.reader_value several reader
    refine .inr ⟨read, reader, id, some (.pushed true), ?_⟩
    rw [published, MpmcRing.slot, read]
  · exact .inl (by simpa only [System.shift, Function.update_of_ne mine] using inside')

/-! ## Handing the slot over -/

/-- A thread with a ticket stores its slot's next sequence and returns. Nobody
else has a ticket of the slot, so it is enough to say what the slot becomes. -/
private theorem Coherent.handOver (coherent : Coherent s) (accounted : Accounted s)
    (several : 2 ≤ C.size) (inside : s.threads t = some r) (claimed : r.frame.claimed = true)
    {turn p : ℕ} {sequence : UInt64} {reply : Reply T}
    (step : Booked s (s.handOver t r (s.ring.storeSequence (.ofNat r.seen) sequence) turn reply))
    (stored : sequence = .ofNat turn) (later : s.turn (C.index (.ofNat r.seen)) ≤ turn)
    (slot : p % C.size = r.seen % C.size)
    (state : SlotState (s.handOver t r (s.ring.storeSequence (.ofNat r.seen) sequence) turn reply)
      (C.index (.ofNat r.seen)) p) :
    Coherent (s.handOver t r (s.ring.storeSequence (.ofNat r.seen) sequence) turn reply) := by
  have apart {t' : Thread} {r' : Running T} (other : t' ≠ t) (inside' : s.threads t' = some r')
      (claimed' : r'.frame.claimed = true) : C.index (.ofNat r'.seen) ≠ C.index (.ofNat r.seen) :=
    fun same => other (coherent.exclusive accounted several inside' inside claimed' claimed same)
  refine ⟨⟨coherent.cursors.enqueue, coherent.cursors.dequeue, ?_⟩, coherent.order, coherent.bound,
    ?_, ?_⟩
  · intro i
    by_cases here : i = C.index (.ofNat r.seen)
    · subst here
      simp [System.handOver, System.finish, MpmcRing.storeSequence, stored]
    · simpa [System.handOver, System.finish, MpmcRing.storeSequence, here] using
        coherent.cursors.sequence i
  · intro t' r' inside'
    by_cases mine : t' = t
    · subst mine
      simp [System.handOver, System.finish] at inside'
    · simp only [System.handOver, System.finish, Function.update_of_ne mine] at inside'
      refine (coherent.frames t' r' inside').transfer le_rfl le_rfl (fun i => ?_)
        (fun _ _ => pushed_step accounted step)
        (fun _ _ _ holds ok => ⟨⟨?_, ok.claimed, ok.unpopped⟩, ?_⟩)
        fun _ _ holds ok => ⟨?_, ok.popped, ok.lap⟩
      · by_cases here : i = C.index (.ofNat r.seen)
        · subst here
          simpa [System.handOver, System.finish] using later
        · simp [System.handOver, System.finish, here]
      · simpa [System.handOver, System.finish, apart mine inside' holds] using ok.turn
      · simp [System.handOver, System.finish, MpmcRing.storeSequence, apart mine inside' holds]
      · simpa [System.handOver, System.finish, apart mine inside' holds] using ok.turn
  · intro i
    by_cases here : i = C.index (.ofNat r.seen)
    · subst here
      exact ⟨p, by rw [slot, C.index_ofNat], state⟩
    · obtain ⟨q, slot', state'⟩ := coherent.slots i
      have other {t' : Thread} {r' : Running T} (inside' : s.threads t' = some r')
          (seen : r'.seen = q) : t' ≠ t := by
        rintro rfl
        rw [inside] at inside'
        cases inside'
        exact here (Fin.ext (by rw [← slot', ← seen, C.index_ofNat]))
      refine ⟨q, slot', state'.transfer ?_ ?_ (fun _ _ => published_step accounted step) le_rfl
        le_rfl id (fun held _ => held) (fun _ near => near) ?_ ?_⟩
      · simp [System.handOver, System.finish, here]
      · simp [System.handOver, System.finish, MpmcRing.storeSequence, here]
      · rintro t' ⟨r', value, point, inside', frame, holds, seen⟩
        exact ⟨r', value, point,
          (Function.update_of_ne (other inside' seen) _ _).trans inside', frame, holds, seen⟩
      · rintro t' ⟨r', point, inside', frame, holds, seen⟩
        exact ⟨r', point,
          (Function.update_of_ne (other inside' seen) _ _).trans inside', frame, holds, seen⟩

/-- A writer publishes its ticket. -/
theorem Coherent.publish (coherent : Coherent s) (accounted : Accounted s) (several : 2 ≤ C.size)
    (inside : s.threads t = some r) (frame : r.frame = .push value (.storeSequence pos)) :
    Coherent (s.handOver t r (s.ring.storeSequence pos (pos + 1)) (r.seen + 1)
      (.pushed true)) := by
  have claimed : r.frame.claimed = true := by rw [frame]; rfl
  have sound := coherent.frames t r inside
  simp only [FrameSound, frame] at sound
  obtain ⟨rfl, writer, written⟩ := sound
  have entry := accounted.running t r inside
  rw [claimed, if_pos rfl, frame] at entry
  refine coherent.handOver accounted several inside claimed (.publish inside frame)
    (Cursor.ofNat_add_one _) (by rw [writer.turn]; exact Nat.le_succ _) rfl
    (.published ?_ writer.claimed writer.unpopped ⟨r.call, ?_⟩)
  · simp [System.handOver, System.finish]
  · simp [System.handOver, System.finish, entry, Frame.request, MpmcRing.storeSequence,
      MpmcRing.slot, written]

/-- A reader releases its slot to the ticket one lap later. -/
theorem Coherent.release (coherent : Coherent s) (accounted : Accounted s) (several : 2 ≤ C.size)
    (inside : s.threads t = some r) (frame : r.frame = .pop (.storeSequence pos out)) :
    Coherent (s.handOver t r (s.ring.storeSequence pos (pos + C.value)) (r.seen + C.size)
      (.popped (some out))) := by
  have claimed : r.frame.claimed = true := by rw [frame]; rfl
  have sound := coherent.frames t r inside
  simp only [FrameSound, frame] at sound
  obtain ⟨rfl, reader, -⟩ := sound
  have lapped : UInt64.ofNat r.seen + C.value = .ofNat (r.seen + C.size) := by
    rw [UInt64.ofNat_add, Capacity.size, UInt64.ofNat_toNat]
  refine coherent.handOver accounted several inside claimed (.release inside frame) lapped ?_
    (Nat.add_mod_right _ _) (.free ?_ reader.lap (Nat.add_lt_add_right reader.popped _))
  · rw [reader.turn]
    exact Nat.add_le_add_left C.size_pos _
  · simp [System.handOver, System.finish]

/-! ## Every step -/

omit [DecidableEq Thread] in
/-- A sequence equal to the cursor value it is compared with has reached it. -/
private theorem Coherent.reached (coherent : Coherent s) {seen : ℕ} (distance : ℕ)
    (same : (s.ring.slot (.ofNat seen)).sequence = .ofNat (seen + distance))
    (past : seen + distance ≤ s.enqueued + 1)
    (fresh : s.turn (C.index (.ofNat seen)) < seen + distance + 2 ^ 64) :
    s.turn (C.index (.ofNat seen)) = seen + distance := by
  have bounds := coherent.turn_bounds (C.index (.ofNat seen))
  have small := C.size_le
  rw [MpmcRing.slot, coherent.cursors.sequence] at same
  exact (Cursor.ofNat_inj (by omega) (by omega)).mp same

/-- A thread without a slot moves on inside its call. -/
private theorem Coherent.onward {frame : Frame T} {seen : ℕ} (coherent : Coherent s)
    (accounted : Accounted s) (inside : s.threads t = some r)
    (request : frame.request = r.frame.request) (unclaimed : r.frame.claimed = false)
    (still : frame.claimed = false) (sound : FrameSound s ⟨r.call, frame, seen⟩) :
    Coherent (s.shift t ⟨r.call, frame, seen⟩) := by
  have step : Booked s (s.shift t ⟨r.call, frame, seen⟩) := by
    refine .shift inside rfl request (still.trans unclaimed.symm) fun claimed => ?_
    rw [unclaimed] at claimed
    cases claimed
  refine coherent.quiet accounted step rfl rfl rfl rfl rfl (idle_of_unclaimed inside unclaimed) ?_
  rintro _ ⟨⟩
  exact sound

/-- A thread without a slot gives up. -/
private theorem Coherent.giveUp {reply : Reply T} (coherent : Coherent s)
    (accounted : Accounted s) (inside : s.threads t = some r) (unclaimed : r.frame.claimed = false)
    (reason : Refused s.ring r.frame reply) : Coherent (s.finish t r.call reply) := by
  have step : Booked s (s.finish t r.call reply) := .refuse inside unclaimed reason
  refine coherent.quiet accounted step rfl rfl rfl rfl rfl (idle_of_unclaimed inside unclaimed) ?_
  intro _ none
  cases none

private theorem Coherent.pushStep (coherent : Coherent s) (accounted : Accounted s)
    (near : r.Near (2 ^ 64) s) (several : 2 ≤ C.size) (inside : s.threads t = some r)
    (spurious : Bool) {point : PushPoint} (frame : r.frame = .push value point) :
    Coherent (s.afterPush t r value (s.ring.pushStep value spurious point).1
      (s.ring.pushStep value spurious point).2) := by
  have sound := coherent.frames t r inside
  have bound := coherent.bound
  have request : .push value = r.frame.request := by rw [frame]; rfl
  have unclaimed (free : (Frame.push value point).claimed = false) : r.frame.claimed = false :=
    frame ▸ free
  cases point with
  | loadPos =>
    exact coherent.onward accounted inside request (unclaimed rfl) rfl
      ⟨coherent.cursors.enqueue, le_rfl⟩
  | loadSequence pos =>
    simp only [FrameSound, Running.Near, frame] at sound near
    obtain ⟨rfl, past⟩ := sound
    simp only [MpmcRing.pushStep]
    split
    · rename_i ready
      rw [Cursor.signedDiff_eq_zero] at ready
      have turn := coherent.reached 0 ready (by omega) (by
        have bounds := coherent.turn_bounds (C.index (.ofNat r.seen))
        omega)
      exact coherent.onward accounted inside request (unclaimed rfl) rfl ⟨rfl, past, turn.ge⟩
    · split
      · rename_i behind
        exact coherent.giveUp accounted inside (unclaimed rfl) (frame ▸ .push behind)
      · exact coherent.onward accounted inside request (unclaimed rfl) rfl trivial
  | exchange pos =>
    simp only [Running.Near, frame] at near
    simp only [MpmcRing.pushStep]
    split
    · rename_i won
      exact coherent.claimPush accounted several inside frame won.1 near
    · exact coherent.onward accounted inside request (unclaimed rfl) rfl
        ⟨coherent.cursors.enqueue, le_rfl⟩
  | writeValue pos => exact coherent.write accounted several inside frame
  | storeSequence pos => exact coherent.publish accounted several inside frame

private theorem Coherent.popStep (coherent : Coherent s) (accounted : Accounted s)
    (near : r.Near (2 ^ 64) s) (several : 2 ≤ C.size) (inside : s.threads t = some r)
    (spurious : Bool) {point : PopPoint T} (frame : r.frame = .pop point) :
    Coherent (s.afterPop t r (s.ring.popStep spurious point).1
      (s.ring.popStep spurious point).2) := by
  have sound := coherent.frames t r inside
  have order := coherent.order
  have request : .pop = r.frame.request := by rw [frame]; rfl
  have unclaimed (free : (Frame.pop point).claimed = false) : r.frame.claimed = false :=
    frame ▸ free
  cases point with
  | loadPos =>
    exact coherent.onward accounted inside request (unclaimed rfl) rfl
      ⟨coherent.cursors.dequeue, le_rfl⟩
  | loadSequence pos =>
    simp only [FrameSound, Running.Near, frame] at sound near
    obtain ⟨rfl, past⟩ := sound
    simp only [MpmcRing.popStep]
    split
    · rename_i ready
      rw [Cursor.signedDiff_eq_zero, Cursor.ofNat_add_one] at ready
      have turn := coherent.reached 1 ready (by omega) (by
        have bounds := coherent.turn_bounds (C.index (.ofNat r.seen))
        omega)
      exact coherent.onward accounted inside request (unclaimed rfl) rfl ⟨rfl, past, turn.ge⟩
    · split
      · rename_i behind
        exact coherent.giveUp accounted inside (unclaimed rfl) (frame ▸ .pop behind)
      · exact coherent.onward accounted inside request (unclaimed rfl) rfl trivial
  | exchange pos =>
    simp only [Running.Near, frame] at near
    simp only [MpmcRing.popStep]
    split
    · rename_i won
      exact coherent.claimPop accounted inside frame won.1 near
    · exact coherent.onward accounted inside request (unclaimed rfl) rfl
        ⟨coherent.cursors.dequeue, le_rfl⟩
  | readValue pos => exact coherent.read accounted several inside frame
  | storeSequence pos out => exact coherent.release accounted several inside frame

/-- **Every step keeps the invariant**, if the thread that takes it does not use a
cursor value that a word of tickets has overtaken. -/
theorem step_coherent {command : Command Thread T} (coherent : Coherent s)
    (accounted : Accounted s) (near : command.Near (2 ^ 64) s) (several : 2 ≤ C.size)
    (moved : s.next command = some s') : Coherent s' := by
  cases command with
  | call t request =>
    simp only [System.next] at moved
    split at moved
    · rename_i idle
      cases moved
      refine coherent.quiet accounted (.begin idle) rfl rfl rfl rfl rfl
        (fun r inside => ?_) ?_
      · rw [idle] at inside
        cases inside
      · rintro _ ⟨⟩
        cases request <;> trivial
    · cases moved
  | run t spurious =>
    simp only [System.next, System.run] at moved
    split at moved
    · cases moved
    · rename_i r inside
      split at moved
      · rename_i value point frame
        cases moved
        exact coherent.pushStep accounted (near r inside) several inside spurious frame
      · rename_i point frame
        cases moved
        exact coherent.popStep accounted (near r inside) several inside spurious frame

theorem start_coherent [Inhabited T] : Coherent (machine Thread T C).start where
  cursors := ⟨rfl, rfl, fun _ => rfl⟩
  order := le_rfl
  bound := Nat.zero_le _
  frames _ _ inside := by cases inside
  slots i := ⟨i, Nat.mod_eq_of_lt i.isLt,
    .free rfl (Nat.zero_le _) (i.isLt.trans_le (Nat.le_add_left _ _))⟩

end Ringio.MpmcSystem
