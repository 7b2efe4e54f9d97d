import Ringio.MpmcCalls

/-! The invariant of the ring under any interleaving. Each slot is free,
being written, published or being read, for one ticket that its sequence
determines, and a thread between claim and sequence store is the one the slot
is waiting for. Stale cursor values are harmless as long as no thread uses one
that a whole word of tickets has overtaken (`Running.Near`). -/
namespace Ringio.MpmcSystem
open BoundedFifo

variable {Thread T : Type} {C : Capacity} {s s' : System Thread T C}

/-- The machine words are the recorded numbers modulo the word size. -/
structure Cursors (s : System Thread T C) : Prop where
  enqueue : s.ring.enqueuePos = .ofNat s.enqueued
  dequeue : s.ring.dequeuePos = .ofNat s.dequeued
  sequence : ∀ i, (s.ring.slots i).sequence = .ofNat (s.turn i)

/-- The thread is between claiming this push ticket and publishing it. -/
def Writing (threads : Thread → Option (Running T)) (t : Thread) (ticket : ℕ) : Prop :=
  ∃ r value point, threads t = some r ∧ r.frame = .push value point ∧
    r.frame.claimed = true ∧ r.seen = ticket

/-- The thread is between claiming this pop ticket and releasing it. -/
def Reading (threads : Thread → Option (Running T)) (t : Thread) (ticket : ℕ) : Prop :=
  ∃ r point, threads t = some r ∧ r.frame = .pop point ∧
    r.frame.claimed = true ∧ r.seen = ticket

/-- The four states of a slot whose current ticket is `p`. -/
inductive SlotState (s : System Thread T C) (i : Fin C.size) (p : ℕ) : Prop where
  | free (turn : s.turn i = p) (unclaimed : s.enqueued ≤ p) (lap : p < s.dequeued + C.size)
  | writing (turn : s.turn i = p) (claimed : p < s.enqueued) (unpopped : s.dequeued ≤ p)
      (owner : ∃ t, Writing s.threads t p)
  | published (turn : s.turn i = p + 1) (claimed : p < s.enqueued) (unpopped : s.dequeued ≤ p)
      (value : s.Published p (s.ring.slots i).value)
  | reading (turn : s.turn i = p + 1) (popped : p < s.dequeued) (lap : s.enqueued ≤ p + C.size)
      (value : s.Published p (s.ring.slots i).value) (owner : ∃ t, Reading s.threads t p)

/-- What a slot looks like to the thread that is writing it. -/
structure WriterSound (s : System Thread T C) (ticket : ℕ) : Prop where
  turn : s.turn (C.index (.ofNat ticket)) = ticket
  claimed : ticket < s.enqueued
  unpopped : s.dequeued ≤ ticket

/-- What a slot looks like to the thread that is reading it. -/
structure ReaderSound (s : System Thread T C) (ticket : ℕ) : Prop where
  turn : s.turn (C.index (.ofNat ticket)) = ticket + 1
  popped : ticket < s.dequeued
  lap : s.enqueued ≤ ticket + C.size

/-- What a thread's locals guarantee at each program point. Before the claim
they are only lower bounds; from the claim on they are exact. -/
def FrameSound (s : System Thread T C) (r : Running T) : Prop :=
  match r.frame with
  | .push _ .loadPos | .pop .loadPos => True
  | .push _ (.loadSequence pos) => pos = .ofNat r.seen ∧ r.seen ≤ s.enqueued
  | .push _ (.exchange pos) => pos = .ofNat r.seen ∧ r.seen ≤ s.enqueued ∧
    r.seen ≤ s.turn (C.index (.ofNat r.seen))
  | .push _ (.writeValue pos) => pos = .ofNat r.seen ∧ WriterSound s r.seen
  | .push value (.storeSequence pos) => pos = .ofNat r.seen ∧ WriterSound s r.seen ∧
    (s.ring.slots (C.index (.ofNat r.seen))).value = value
  | .pop (.loadSequence pos) => pos = .ofNat r.seen ∧ r.seen ≤ s.dequeued
  | .pop (.exchange pos) => pos = .ofNat r.seen ∧ r.seen ≤ s.dequeued ∧
    r.seen < s.turn (C.index (.ofNat r.seen))
  | .pop (.readValue pos) => pos = .ofNat r.seen ∧ ReaderSound s r.seen
  | .pop (.storeSequence pos out) => pos = .ofNat r.seen ∧ ReaderSound s r.seen ∧
    s.Pushed r.seen out

/-- The ring, the threads and the record fit together. -/
structure Coherent (s : System Thread T C) : Prop where
  cursors : Cursors s
  order : s.dequeued ≤ s.enqueued
  bound : s.enqueued ≤ s.dequeued + C.size
  frames : ∀ t r, s.threads t = some r → FrameSound s r
  slots : ∀ i : Fin C.size, ∃ p, p % C.size = i ∧ SlotState s i p

/-- A thread about to use a cursor value does so before the cursor is `span`
tickets ahead of it, a lap of the array included. -/
def Running.Near (r : Running T) (span : ℕ) (s : System Thread T C) : Prop :=
  match r.frame with
  | .push _ (.loadSequence _) | .push _ (.exchange _) => s.enqueued + C.size ≤ r.seen + span
  | .pop (.loadSequence _) | .pop (.exchange _) => s.dequeued + C.size ≤ r.seen + span
  | _ => True

/-- The thread that takes this step does; the others may hold values as old as
they like. -/
def Command.Near (command : Command Thread T) (span : ℕ) (s : System Thread T C) : Prop :=
  ∀ r ∈ s.threads command.thread, r.Near span s

/-! ## Reading a slot's state off its sequence -/

theorem Coherent.slotAt (coherent : Coherent s) (ticket : ℕ) :
    ∃ p, p % C.size = ticket % C.size ∧ SlotState s (C.index (.ofNat ticket)) p := by
  obtain ⟨p, slot, state⟩ := coherent.slots (C.index (.ofNat ticket))
  exact ⟨p, by rw [slot, C.index_ofNat], state⟩

/-- Sequences stay within a lap of the cursors. -/
theorem Coherent.turn_bounds (coherent : Coherent s) (i : Fin C.size) :
    s.turn i < s.enqueued + C.size ∧ s.turn i ≤ s.dequeued + C.size ∧
      s.enqueued ≤ s.turn i + C.size := by
  have order := coherent.order
  have bound := coherent.bound
  have positive := C.size_pos
  obtain ⟨p, -, state⟩ := coherent.slots i
  cases state with
  | free turn | writing turn | published turn | reading turn => omega

/-- A sequence that has reached the enqueue cursor is exactly there, and the
slot is free. -/
theorem Coherent.free_at_enqueue (coherent : Coherent s) (several : 2 ≤ C.size)
    (reached : s.enqueued ≤ s.turn (C.index (.ofNat s.enqueued))) :
    s.turn (C.index (.ofNat s.enqueued)) = s.enqueued ∧ s.enqueued < s.dequeued + C.size := by
  have order := coherent.order
  obtain ⟨p, slot, state⟩ := coherent.slotAt s.enqueued
  cases state with
  | free turn unclaimed lap =>
    have same := Cursor.eq_of_mod slot unclaimed (by omega)
    omega
  | writing turn claimed => omega
  | published turn claimed =>
    have next : s.enqueued = p + 1 := by omega
    exact absurd (next ▸ slot.symm) (Cursor.succ_mod_ne several p)
  | reading turn popped =>
    have next : s.enqueued = p + 1 := by omega
    exact absurd (next ▸ slot.symm) (Cursor.succ_mod_ne several p)

/-- A sequence past the dequeue cursor is one past it, and the slot holds the
published element. -/
theorem Coherent.published_at_dequeue (coherent : Coherent s)
    (passed : s.dequeued < s.turn (C.index (.ofNat s.dequeued))) :
    s.turn (C.index (.ofNat s.dequeued)) = s.dequeued + 1 ∧ s.dequeued < s.enqueued ∧
      s.Published s.dequeued (s.ring.slots (C.index (.ofNat s.dequeued))).value := by
  have order := coherent.order
  have bound := coherent.bound
  obtain ⟨p, slot, state⟩ := coherent.slotAt s.dequeued
  cases state with
  | free turn unclaimed lap =>
    have same := Cursor.eq_of_mod slot (by omega) lap
    omega
  | writing turn claimed unpopped =>
    have same := Cursor.eq_of_mod slot unpopped (by omega)
    omega
  | published turn claimed unpopped value =>
    have same := Cursor.eq_of_mod slot unpopped (by omega)
    subst same
    exact ⟨turn, claimed, value⟩
  | reading turn popped => omega

/-- A reader finds its own element published in its slot. -/
theorem Coherent.reader_value (coherent : Coherent s) (several : 2 ≤ C.size) {ticket : ℕ}
    (reader : ReaderSound s ticket) :
    s.Published ticket (s.ring.slots (C.index (.ofNat ticket))).value := by
  obtain ⟨turn, popped, lap⟩ := reader
  obtain ⟨p, slot, state⟩ := coherent.slotAt ticket
  cases state with
  | free turn' | writing turn' =>
    have next : p = ticket + 1 := by omega
    exact absurd (next ▸ slot) (Cursor.succ_mod_ne several ticket)
  | published turn' claimed unpopped =>
    omega
  | reading turn' _ _ value =>
    have same : p = ticket := by omega
    exact same ▸ value

/-! ## What survives a step -/

/-- A frame's guarantees survive a step that moves nothing backwards and does
not touch a slot the frame owns. -/
theorem FrameSound.transfer {r : Running T} (sound : FrameSound s r)
    (enqueued : s.enqueued ≤ s'.enqueued) (dequeued : s.dequeued ≤ s'.dequeued)
    (turn : ∀ i, s.turn i ≤ s'.turn i)
    (pushed : ∀ ticket value, s.Pushed ticket value → s'.Pushed ticket value)
    (writer : ∀ value point, r.frame = .push value point → r.frame.claimed = true →
      WriterSound s r.seen → WriterSound s' r.seen ∧
        (s'.ring.slots (C.index (.ofNat r.seen))).value =
          (s.ring.slots (C.index (.ofNat r.seen))).value)
    (reader : ∀ point, r.frame = .pop point → r.frame.claimed = true →
      ReaderSound s r.seen → ReaderSound s' r.seen) : FrameSound s' r := by
  obtain ⟨call, frame, seen⟩ := r
  cases frame with
  | push value point =>
    cases point with
    | loadPos => trivial
    | loadSequence pos => exact ⟨sound.1, sound.2.trans enqueued⟩
    | exchange pos => exact ⟨sound.1, sound.2.1.trans enqueued, sound.2.2.trans (turn _)⟩
    | writeValue pos => exact ⟨sound.1, (writer _ _ rfl rfl sound.2).1⟩
    | storeSequence pos =>
      obtain ⟨kept, same⟩ := writer _ _ rfl rfl sound.2.1
      exact ⟨sound.1, kept, same.trans sound.2.2⟩
  | pop point =>
    cases point with
    | loadPos => trivial
    | loadSequence pos => exact ⟨sound.1, sound.2.trans dequeued⟩
    | exchange pos => exact ⟨sound.1, sound.2.1.trans dequeued, sound.2.2.trans_le (turn _)⟩
    | readValue pos => exact ⟨sound.1, reader _ rfl rfl sound.2⟩
    | storeSequence pos out => exact ⟨sound.1, reader _ rfl rfl sound.2.1, pushed _ _ sound.2.2⟩

/-- A slot's state survives a step that leaves its own sequence, value and
owner alone and whose cursors do not pass its ticket. -/
theorem SlotState.transfer {i : Fin C.size} {p : ℕ} (state : SlotState s i p)
    (turn : s'.turn i = s.turn i) (value : (s'.ring.slots i).value = (s.ring.slots i).value)
    (published : ∀ ticket value, s.Published ticket value → s'.Published ticket value)
    (enqueued : s.enqueued ≤ s'.enqueued) (dequeued : s.dequeued ≤ s'.dequeued)
    (unclaimed : s.enqueued ≤ p → s'.enqueued ≤ p)
    (unpopped : s.dequeued ≤ p → p < s.enqueued → s'.dequeued ≤ p)
    (lap : p < s.dequeued → s.enqueued ≤ p + C.size → s'.enqueued ≤ p + C.size)
    (writers : ∀ t, Writing s.threads t p → Writing s'.threads t p)
    (readers : ∀ t, Reading s.threads t p → Reading s'.threads t p) : SlotState s' i p := by
  cases state with
  | free turned open_ near => exact .free (by omega) (unclaimed open_) (by omega)
  | writing turned claimed held owner =>
    exact .writing (by omega) (by omega) (unpopped held claimed) (owner.imp writers)
  | published turned claimed held element =>
    exact .published (by omega) (by omega) (unpopped held claimed) (value ▸ published _ _ element)
  | reading turned popped near element owner =>
    exact .reading (by omega) (by omega) (lap popped near) (value ▸ published _ _ element)
      (owner.imp readers)

/-- A step that moves threads and nothing else keeps the system coherent when
the moved thread's new locals are sound and nobody loses a slot. -/
theorem Coherent.reframe (coherent : Coherent s) (ring : s'.ring = s.ring)
    (enqueued : s'.enqueued = s.enqueued) (dequeued : s'.dequeued = s.dequeued)
    (turn : s'.turn = s.turn)
    (pushed : ∀ ticket value, s.Pushed ticket value → s'.Pushed ticket value)
    (published : ∀ ticket value, s.Published ticket value → s'.Published ticket value)
    (writers : ∀ t ticket, Writing s.threads t ticket → Writing s'.threads t ticket)
    (readers : ∀ t ticket, Reading s.threads t ticket → Reading s'.threads t ticket)
    (frames : ∀ t r, s'.threads t = some r → s.threads t = some r ∨ FrameSound s r) :
    Coherent s' where
  cursors := ⟨by rw [ring, enqueued]; exact coherent.cursors.enqueue,
    by rw [ring, dequeued]; exact coherent.cursors.dequeue,
    by rw [ring, turn]; exact coherent.cursors.sequence⟩
  order := by rw [enqueued, dequeued]; exact coherent.order
  bound := by rw [enqueued, dequeued]; exact coherent.bound
  frames t r inside := by
    refine FrameSound.transfer ((frames t r inside).elim (coherent.frames t r) id) enqueued.ge
      dequeued.ge (fun _ => by rw [turn]) pushed (fun _ _ _ _ ok => ⟨?_, by rw [ring]⟩)
      fun _ _ _ ok => ?_
    · exact ⟨turn ▸ ok.turn, enqueued ▸ ok.claimed, dequeued ▸ ok.unpopped⟩
    · exact ⟨turn ▸ ok.turn, dequeued ▸ ok.popped, enqueued ▸ ok.lap⟩
  slots i := by
    obtain ⟨p, slot, state⟩ := coherent.slots i
    exact ⟨p, slot, state.transfer (by rw [turn]) (by rw [ring]) published enqueued.ge dequeued.ge
      enqueued.le.trans (fun held _ => dequeued.le.trans held)
      (fun _ near => enqueued.le.trans near) (writers · p) (readers · p)⟩

variable [DecidableEq Thread]

/-- Moving a thread that owns no slot takes no slot from anybody. -/
theorem writing_update {threads : Thread → Option (Running T)} {t t' : Thread}
    {x : Option (Running T)} {ticket : ℕ}
    (unclaimed : ∀ r, threads t = some r → r.frame.claimed = false)
    (owner : Writing threads t' ticket) : Writing (Function.update threads t x) t' ticket := by
  obtain ⟨r, value, point, inside, frame, claimed, seen⟩ := owner
  have other : t' ≠ t := fun same => by
    rw [unclaimed r (same ▸ inside)] at claimed
    cases claimed
  exact ⟨r, value, point, by rw [Function.update_of_ne other]; exact inside, frame, claimed, seen⟩

theorem reading_update {threads : Thread → Option (Running T)} {t t' : Thread}
    {x : Option (Running T)} {ticket : ℕ}
    (unclaimed : ∀ r, threads t = some r → r.frame.claimed = false)
    (owner : Reading threads t' ticket) : Reading (Function.update threads t x) t' ticket := by
  obtain ⟨r, point, inside, frame, claimed, seen⟩ := owner
  have other : t' ≠ t := fun same => by
    rw [unclaimed r (same ▸ inside)] at claimed
    cases claimed
  exact ⟨r, point, by rw [Function.update_of_ne other]; exact inside, frame, claimed, seen⟩

/-- A thread without a slot starts, retries or gives up. -/
theorem Coherent.quiet (coherent : Coherent s) (accounted : Accounted s) (step : Booked s s')
    {t : Thread} {x : Option (Running T)} (threads : s'.threads = Function.update s.threads t x)
    (ring : s'.ring = s.ring) (enqueued : s'.enqueued = s.enqueued)
    (dequeued : s'.dequeued = s.dequeued) (turn : s'.turn = s.turn)
    (unclaimed : ∀ r, s.threads t = some r → r.frame.claimed = false)
    (sound : ∀ r, x = some r → FrameSound s r) : Coherent s' := by
  refine coherent.reframe ring enqueued dequeued turn
    (fun _ _ => pushed_step accounted step) (fun _ _ => published_step accounted step)
    (fun t' ticket owner => threads ▸ writing_update unclaimed owner)
    (fun t' ticket owner => threads ▸ reading_update unclaimed owner) ?_
  intro t' r inside
  rw [threads] at inside
  by_cases own : t' = t
  · subst own
    rw [Function.update_self] at inside
    exact .inr (sound r inside)
  · rw [Function.update_of_ne own] at inside
    exact .inl inside

end Ringio.MpmcSystem
