import Ringio.MpmcOwnership

/-! What a refusal means. A call decides on one slot's sequence, so "full" and
"empty" are judged at the cursor alone: a thread stalled there stands for the
whole ring. These results need no bound on the length of a run, only that no
call uses a cursor value that a word of tickets has overtaken, and the refused
one none that half a word has. -/
namespace Ringio.MpmcSystem
open BoundedFifo

variable {Thread T : Type} [DecidableEq Thread] {C : Capacity} {s s' : System Thread T C}
  {t : Thread} {r : Running T} {id : ℕ} {value : T} {pos : UInt64}

/-- Runs in which every cursor value that is used is used before the cursor comes
within `Capacity` of `2 ^ 64` tickets ahead of it. -/
def recentReads (s : System Thread T C) (command : Command Thread T) (_ : System Thread T C) :
    Prop :=
  command.Near (2 ^ 64) s

instance (span : ℕ) (s : System Thread T C) : (r : Running T) → Decidable (r.Near span s)
  | ⟨_, .push _ (.loadSequence _), _⟩ | ⟨_, .push _ (.exchange _), _⟩
  | ⟨_, .pop (.loadSequence _), _⟩ | ⟨_, .pop (.exchange _), _⟩ =>
    inferInstanceAs (Decidable (_ ≤ _))
  | ⟨_, .push _ .loadPos, _⟩ | ⟨_, .push _ (.writeValue _), _⟩ | ⟨_, .push _ (.storeSequence _), _⟩
  | ⟨_, .pop .loadPos, _⟩ | ⟨_, .pop (.readValue _), _⟩ | ⟨_, .pop (.storeSequence _ _), _⟩ =>
    inferInstanceAs (Decidable True)

instance (command : Command Thread T) (span : ℕ) (s : System Thread T C) :
    Decidable (command.Near span s) :=
  inferInstanceAs (Decidable (∀ r ∈ s.threads command.thread, r.Near span s))

instance (s : System Thread T C) (command : Command Thread T) (s' : System Thread T C) :
    Decidable (recentReads s command s') :=
  inferInstanceAs (Decidable (command.Near (2 ^ 64) s))

/-- The record alone is in order along every run. -/
theorem run_accounted [Inhabited T] {allowed} (reached : (machine Thread T C).Reachable allowed s) :
    Accounted s :=
  reached.invariant start_accounted fun accounted moved _ =>
    step_accounted accounted (booked moved)

/-- Such runs keep the invariant however long they are. -/
theorem run_coherent [Inhabited T] (several : 2 ≤ C.size)
    (reached : (machine Thread T C).Reachable recentReads s) : Accounted s ∧ Coherent s := by
  refine reached.invariant (P := fun x => Accounted x ∧ Coherent x)
    ⟨start_accounted, start_coherent⟩ ?_
  rintro s command s' ⟨accounted, coherent⟩ moved near
  exact ⟨step_accounted accounted (booked moved),
    step_coherent coherent accounted near several moved⟩

/-! ## What the deciding load saw -/

omit [DecidableEq Thread] in
/-- A pop is refused at the dequeue cursor, where nothing has been claimed or a
push has not published what it claimed. -/
theorem Coherent.pop_refused (coherent : Coherent s) {seen : ℕ} (past : seen ≤ s.dequeued)
    (recent : s.dequeued + C.size ≤ seen + 2 ^ 63)
    (behind : Cursor.signedDiff (s.ring.slot (.ofNat seen)).sequence (.ofNat seen + 1) < 0) :
    s.enqueued = s.dequeued ∨ ∃ t, Writing s.threads t s.dequeued := by
  have order := coherent.order
  have small := C.size_le
  have near := (coherent.turn_bounds (C.index (.ofNat seen))).2.1
  rw [MpmcRing.slot, coherent.cursors.sequence, Cursor.ofNat_add_one] at behind
  obtain ⟨p, slot, state⟩ := coherent.slotAt seen
  have reachable : seen + 1 ≤ s.turn (C.index (.ofNat seen)) + 2 ^ 63 := by
    cases state with
    | free | writing | published | reading => omega
  have turned := (Cursor.signedDiff_neg reachable (by omega)).mp behind
  cases state with
  | free turn unclaimed => exact .inl (by omega)
  | writing turn claimed unpopped owner =>
    have same : p = s.dequeued := by omega
    exact .inr (same ▸ owner)
  | published turn claimed unpopped => omega
  | reading turn popped lap =>
    have lapped : ¬ seen < p + C.size := fun near =>
      absurd (Cursor.eq_of_mod slot.symm (by omega) near) (by omega)
    exact .inl (by omega)

omit [DecidableEq Thread] in
/-- A push is refused at the enqueue cursor, where the ring is full or a pop has
not released what it claimed a lap before. -/
theorem Coherent.push_refused (coherent : Coherent s) {seen : ℕ} (past : seen ≤ s.enqueued)
    (recent : s.enqueued + C.size ≤ seen + 2 ^ 63)
    (behind : Cursor.signedDiff (s.ring.slot (.ofNat seen)).sequence (.ofNat seen) < 0) :
    s.enqueued = s.dequeued + C.size ∨
      ∃ t ticket, ticket + C.size = s.enqueued ∧ Reading s.threads t ticket := by
  have bound := coherent.bound
  have small := C.size_le
  have near := coherent.turn_bounds (C.index (.ofNat seen))
  rw [MpmcRing.slot, coherent.cursors.sequence] at behind
  obtain ⟨p, slot, state⟩ := coherent.slotAt seen
  have turned := (Cursor.signedDiff_neg (by omega) (by omega)).mp behind
  have lapped (earlier : p < seen) : p + C.size ≤ seen := by
    by_contra near
    have same := Cursor.eq_of_mod slot.symm earlier.le (by omega)
    omega
  cases state with
  | free turn unclaimed => omega
  | writing turn claimed unpopped =>
    have lap := lapped (by omega)
    exact .inl (by omega)
  | published turn claimed unpopped =>
    have lap := lapped (by omega)
    exact .inl (by omega)
  | reading turn popped lap element owner =>
    have lap' := lapped (by omega)
    obtain ⟨t, reading⟩ := owner
    exact .inr ⟨t, p, by omega, reading⟩

/-- A call is closed by a step of its own thread. -/
theorem closed_by_own {command : Command Thread T} {request : Request T} {ticket : Option ℕ}
    {reply : Reply T} (accounted : Accounted s) (moved : s.next command = some s')
    (inside : s.threads t = some r)
    (closed : s'.calls r.call = some ⟨request, ticket, some reply⟩) : command.thread = t := by
  by_contra elsewhere
  have still := (other_step moved elsewhere).trans inside
  have entry := (step_accounted accounted (booked moved)).running t r still
  rw [closed] at entry
  cases entry

/-- A call still open before a step and refused after it was at its load of a
sequence, and the step was its own. -/
theorem refused_at_load {command : Command Thread T} {request request' : Request T}
    {ticket ticket' : Option ℕ} {reply : Reply T}
    (accounted : Accounted s) (moved : s.next command = some s')
    (running : s.calls id = some ⟨request, ticket, none⟩)
    (closed : s'.calls id = some ⟨request', ticket', some reply⟩)
    (refusal : reply = .pushed false ∨ reply = .popped none) :
    ∃ r, s.threads command.thread = some r ∧ r.call = id ∧ Refused s.ring r.frame reply := by
  rcases closed_origin accounted (booked moved) closed with
    before | ⟨t, r, inside, own, -, ⟨-, reason⟩ | ⟨_, _, _, _, answer⟩ | ⟨_, _, _, _, answer⟩⟩
  · rw [running] at before
    cases before
  · have mover := closed_by_own accounted moved inside (own ▸ closed)
    exact ⟨r, mover ▸ inside, own, reason⟩
  · subst answer
    rcases refusal with wrong | wrong <;> cases wrong
  · subst answer
    rcases refusal with wrong | wrong <;> cases wrong

/-- **Refusals judge the cursor.** In a run of any length in which no call uses a
cursor value that a word of tickets has overtaken, a call that returns false does
so at its load of a sequence, and in that state, unless half a word has overtaken
the value it used: for a pop, every claimed push ticket has been claimed by a pop,
or the ticket at `dequeue_pos_` belongs to a push that has not returned; for a
push, `Capacity` tickets are claimed by pushes and not by pops, or the ticket one
lap before `enqueue_pos_` belongs to a pop that has not returned. -/
theorem refusals_judge_cursor [Inhabited T] {command : Command Thread T} (several : 2 ≤ C.size)
    (reached : (machine Thread T C).Reachable recentReads s)
    (moved : s.next command = some s') (recent : command.Near (2 ^ 63) s) :
    (∀ id ticket ticket', s.calls id = some ⟨.pop, ticket, none⟩ →
      s'.calls id = some ⟨.pop, ticket', some (.popped none)⟩ →
      (∃ t r pos, s.threads t = some r ∧ r.call = id ∧ r.frame = .pop (.loadSequence pos)) ∧
      ((∀ push ticket, s.ClaimedPush push ticket → ∃ pop, s.ClaimedPop pop ticket) ∨
        ∃ push value k, s.ring.dequeuePos = .ofNat k ∧ (∀ pop, ¬ s.ClaimedPop pop k) ∧
          s.calls push = some ⟨.push value, some k, none⟩)) ∧
    (∀ id value ticket ticket', s.calls id = some ⟨.push value, ticket, none⟩ →
      s'.calls id = some ⟨.push value, ticket', some (.pushed false)⟩ →
      (∃ t r pos, s.threads t = some r ∧ r.call = id ∧ r.frame = .push value (.loadSequence pos)) ∧
      (s.enqueued = s.dequeued + C.size ∨
        ∃ pop k, k + C.size = s.enqueued ∧ s.calls pop = some ⟨.pop, some k, none⟩)) := by
  obtain ⟨accounted, coherent⟩ := run_coherent several reached
  refine ⟨fun id ticket ticket' running closed => ?_,
    fun id value ticket ticket' running closed => ?_⟩
  · obtain ⟨r, inside, own, reason⟩ :=
      refused_at_load accounted moved running closed (.inr rfl)
    have sound := coherent.frames _ r inside
    have near := recent r inside
    obtain ⟨call, frame, seen⟩ := r
    cases reason with
    | pop behind =>
      refine ⟨⟨_, _, _, inside, own, rfl⟩, ?_⟩
      obtain ⟨read, past⟩ := sound
      rw [read] at behind
      rcases coherent.pop_refused past near behind with empty | ⟨t', writing⟩
      · refine .inl fun push ticket claimed => (accounted.owned.pop ticket).mp ?_
        rw [← empty]
        exact (accounted.owned.push ticket).mpr ⟨push, claimed⟩
      · obtain ⟨r', value, -, entry⟩ := accounted.writing_entry writing
        refine .inr ⟨r'.call, value, s.dequeued, coherent.cursors.dequeue, fun pop claimed => ?_,
          entry⟩
        exact lt_irrefl _ ((accounted.owned.pop _).mpr ⟨pop, claimed⟩)
  · obtain ⟨r, inside, own, reason⟩ :=
      refused_at_load accounted moved running closed (.inl rfl)
    have sound := coherent.frames _ r inside
    have near := recent r inside
    have entry := accounted.running _ r inside
    rw [own, running] at entry
    obtain ⟨call, frame, seen⟩ := r
    cases reason with
    | push behind =>
      cases entry
      refine ⟨⟨_, _, _, inside, own, rfl⟩, ?_⟩
      obtain ⟨read, past⟩ := sound
      rw [read] at behind
      rcases coherent.push_refused past near behind with full | ⟨t', k, lap, reading⟩
      · exact .inl full
      · obtain ⟨r', -, entry⟩ := accounted.reading_entry reading
        exact .inr ⟨r'.call, k, lap, entry⟩

/-- A ring of two slots. -/
def two : Capacity := ⟨2, by decide, by decide⟩

/-- A producer claims the first ticket and stalls; another publishes the second
and returns. -/
def stalledProducer : List (Command (Fin 3) Bool) :=
  [.call 0 (.push true), .run 0 false, .run 0 false, .run 0 false, .call 1 (.push false),
    .run 1 false, .run 1 false, .run 1 false, .run 1 false, .run 1 false]

/-- A pop refused behind a stalled producer: the ticket at the cursor is that
producer's. -/
theorem refusals_judge_cursor_stalledProducer :
    let m := machine (Fin 3) Bool two
    ∃ s s', m.execWithin recentReads m.start (stalledProducer ++ [.call 2 .pop, .run 2 false]) =
        some s ∧ s.next (.run 2 false) = some s' ∧
      s'.calls 2 = some ⟨.pop, none, some (.popped none)⟩ ∧
      ((∀ push ticket, s.ClaimedPush push ticket → ∃ pop, s.ClaimedPop pop ticket) ∨
        ∃ push value k, s.ring.dequeuePos = .ofNat k ∧ (∀ pop, ¬ s.ClaimedPop pop k) ∧
          s.calls push = some ⟨.push value, some k, none⟩) := by
  intro m
  have ends : ((m.execWithin recentReads m.start
      (stalledProducer ++ [.call 2 .pop, .run 2 false])).bind fun s =>
        (s.next (.run 2 false)).map fun s' =>
          (decide (Command.Near (.run 2 false) (2 ^ 63) s), s.calls 2, s'.calls 2)) =
      some (true, some ⟨.pop, none, none⟩, some ⟨.pop, none, some (.popped none)⟩) := by decide
  obtain ⟨s, ran, later⟩ := Option.bind_eq_some_iff.mp ends
  obtain ⟨s', moved, shape⟩ := Option.map_eq_some_iff.mp later
  simp only [Prod.mk.injEq, decide_eq_true_eq] at shape
  obtain ⟨recent, running, closed⟩ := shape
  have verdicts := refusals_judge_cursor (by decide) (Machine.execWithin_reaches _ ran) moved recent
  exact ⟨s, s', ran, moved, closed, (verdicts.1 2 none none running closed).2⟩

/-! ## What a refusal does not mean -/

/-- The states of a run from the start of one call to its return with this
reply, the first one left out. -/
structure Span [Inhabited T] (s : System Thread T C) (t : Thread) (request : Request T)
    (reply : Reply T) (instants : List (System Thread T C)) : Prop where
  reached : (machine Thread T C).Reachable Machine.anyStep s
  idle : s.threads t = none
  run : List.IsChain ((machine Thread T C).Step Machine.anyStep) (s.begin t request :: instants)
  running : ∀ x ∈ instants.dropLast, ∃ ticket, x.calls s.issued = some ⟨request, ticket, none⟩
  returned : ∃ last ∈ instants.getLast?, ∃ ticket,
    last.calls s.issued = some ⟨request, ticket, some reply⟩

/-- During every refused pop there is an instant at which every push that has
returned true has its ticket claimed by a pop. -/
def EmptyWhenRefused (Thread T : Type) [DecidableEq Thread] [Inhabited T] (C : Capacity) : Prop :=
  ∀ (s : System Thread T C) t instants, Span s t .pop (.popped none) instants →
    ∃ x ∈ s.begin t .pop :: instants, ∀ push value ticket,
      x.calls push = some ⟨.push value, some ticket, some (.pushed true)⟩ →
        ∃ pop, x.ClaimedPop pop ticket

/-- During every refused push there is an instant at which `Capacity` tickets are
claimed by pushes and not by pops. -/
def FullWhenRefused (Thread T : Type) [DecidableEq Thread] [Inhabited T] (C : Capacity) : Prop :=
  ∀ (s : System Thread T C) t value instants, Span s t (.push value) (.pushed false) instants →
    ∃ x ∈ s.begin t (.push value) :: instants, x.enqueued = x.dequeued + C.size

/-- A whole call by another thread changes nothing for a thread that stands
still. -/
private theorem whole_push [Inhabited T] (value : T)
    (reached : (machine Thread T C).Reachable Machine.anyStep s) (idle : s.threads t = none)
    (settled : s.ring.Settled) (room : s.ring.count < C.size) :
    ∃ s', (machine Thread T C).Reachable Machine.anyStep s' ∧ s'.threads = s.threads ∧
      s'.ring.Settled ∧ s'.ring.count = s.ring.count + 1 ∧
      s'.ring.dequeuePos = s.ring.dequeuePos := by
  have pushed : s.ring.call 5 0 (.push value) =
      some (.pushed true, s.ring.afterPush value) := by
    rw [MpmcRing.call, MpmcRing.runPush_succeeds (settled.push_diff_room room) value 0 5 le_rfl]
    rfl
  obtain ⟨_, s', ran, ring, threads, -⟩ := call_alone idle pushed
  have settled' := (settled.afterPush room value).1
  have count := MpmcRing.count_afterPush room value
  rw [← ring] at settled' count
  refine ⟨s', reached.trans (Machine.exec_reaches _ ran), threads, settled', count, ?_⟩
  rw [ring]
  rfl

/-- A push and a pop together move both cursors by one under it. -/
private theorem round [Inhabited T] (several : 2 ≤ C.size) (value : T)
    (reached : (machine Thread T C).Reachable Machine.anyStep s) (idle : s.threads t = none)
    (settled : s.ring.Settled) (empty : s.ring.count = 0) :
    ∃ s', (machine Thread T C).Reachable Machine.anyStep s' ∧ s'.threads = s.threads ∧
      s'.ring.Settled ∧ s'.ring.count = 0 ∧ s'.ring.dequeuePos = s.ring.dequeuePos + 1 := by
  obtain ⟨s₁, reached₁, threads₁, settled₁, count₁, pos₁⟩ :=
    whole_push value reached idle settled (by omega)
  have filled : 0 < s₁.ring.count := by omega
  have popped : s₁.ring.call 5 0 .pop =
      some (.popped (some (s₁.ring.slot s₁.ring.dequeuePos).value), s₁.ring.afterPop) := by
    rw [MpmcRing.call, MpmcRing.runPop_succeeds (settled₁.pop_diff_nonempty filled) 0 5 le_rfl]
    rfl
  obtain ⟨_, s₂, ran₂, ring₂, threads₂, -⟩ := call_alone (threads₁ ▸ idle) popped
  have settled₂ := (settled₁.afterPop filled).1
  have count₂ := MpmcRing.count_afterPop filled
  rw [← ring₂] at settled₂ count₂
  refine ⟨s₂, reached₁.trans (Machine.exec_reaches _ ran₂), threads₂.trans threads₁, settled₂,
    by omega, ?_⟩
  rw [ring₂]
  show s₁.ring.dequeuePos + 1 = _
  rw [pos₁]

/-- Any number of such rounds can pass between two steps of a thread. -/
private theorem rounds [Inhabited T] (several : 2 ≤ C.size) (value : T)
    (reached : (machine Thread T C).Reachable Machine.anyStep s) (idle : s.threads t = none)
    (settled : s.ring.Settled) (empty : s.ring.count = 0) (number : ℕ) :
    ∃ s', (machine Thread T C).Reachable Machine.anyStep s' ∧ s'.threads = s.threads ∧
      s'.ring.Settled ∧ s'.ring.count = 0 ∧
      s'.ring.dequeuePos = s.ring.dequeuePos + .ofNat number := by
  induction number with
  | zero => exact ⟨s, reached, rfl, settled, empty, (UInt64.add_zero _).symm⟩
  | succ number ih =>
    obtain ⟨s₁, reached₁, threads₁, settled₁, empty₁, pos₁⟩ := ih
    obtain ⟨s₂, reached₂, threads₂, settled₂, empty₂, pos₂⟩ :=
      round several value reached₁ (t := t) (by rw [threads₁, idle]) settled₁ empty₁
    refine ⟨s₂, reached₂, threads₂.trans threads₁, settled₂, empty₂, ?_⟩
    rw [pos₂, pos₁, UInt64.add_assoc, Cursor.ofNat_add_one]

/-- A push has read the cursor of a fresh ring and stands still. -/
private def stalled : System Bool Bool two :=
  ((machine Bool Bool two).start.begin true (.push true)).shift true
    ⟨0, .push true (.loadSequence 0), 0⟩

/-- When the others have completed `2 ^ 63 - 1` pushes and pops it finds the
sequence half a word ahead of its cursor value and takes it for behind. -/
private theorem stale_push_refused :
    ∃ s s' : System Bool Bool two, (machine Bool Bool two).Reachable Machine.anyStep s ∧
      s.ring.enqueuePos = s.ring.dequeuePos ∧ s.threads false = none ∧
      s.next (.run true false) = some s' ∧
      s'.calls 0 = some ⟨.push true, none, some (.pushed false)⟩ := by
  have first : (machine Bool Bool two).Reachable Machine.anyStep stalled :=
    Machine.exec_reaches [.call true (.push true), .run true false] rfl
  obtain ⟨s, reached, threads, settled, empty, pos⟩ := rounds (t := false) (by decide) true first
    rfl MpmcRing.new_settled rfl (2 ^ 63 - 1)
  have inside : s.threads true = some ⟨0, .push true (.loadSequence 0), 0⟩ := by
    rw [threads]
    rfl
  have entry := (run_accounted reached).running true _ inside
  have ahead : (s.ring.slot 0).sequence = .ofNat (2 ^ 63) := by
    have free := settled.free 1 (by omega) (by decide)
    rw [pos] at free
    exact free
  have behind : Cursor.signedDiff (s.ring.slot 0).sequence 0 < 0 := by
    rw [ahead]
    decide
  have unequal : Cursor.signedDiff (s.ring.slot 0).sequence 0 ≠ 0 := by
    rw [ahead]
    decide
  have moved : s.next (.run true false) = some ({ s with ring := s.ring }.finish true 0
      (.pushed false)) := by
    simp only [System.next, System.run, inside, MpmcRing.pushStep, unequal, behind, if_false,
      if_true, System.afterPush]
  refine ⟨s, _, reached, ?_, by rw [threads]; rfl, moved, ?_⟩
  · rw [s.ring.enqueuePos_eq, empty]
    exact UInt64.add_zero _
  · simp [System.finish, entry, Frame.request, Frame.claimed]

/-- The push has found its slot free and stands still before its
compare-exchange. -/
private def halted : System Bool Bool two :=
  stalled.shift true ⟨0, .push true (.exchange 0), 0⟩

/-- When a word of tickets has passed and the ring is full, the cursor is at the
value it holds again. -/
private theorem full_around_halted :
    ∃ s : System Bool Bool two, (machine Bool Bool two).Reachable Machine.anyStep s ∧
      s.threads = halted.threads ∧ s.ring.Settled ∧ s.ring.count = 2 ∧
      s.ring.dequeuePos = .ofNat (2 ^ 64 - 2) := by
  have first : (machine Bool Bool two).Reachable Machine.anyStep halted :=
    Machine.exec_reaches [.call true (.push true), .run true false, .run true false] rfl
  obtain ⟨s₀, reached₀, threads₀, settled₀, empty, pos₀⟩ := rounds (t := false) (by decide) true
    first rfl MpmcRing.new_settled rfl (2 ^ 64 - 2)
  obtain ⟨s₁, reached₁, threads₁, settled₁, one, pos₁⟩ := whole_push (t := false) true reached₀
    (by rw [threads₀]; rfl) settled₀ (by rw [empty]; decide)
  obtain ⟨s₂, reached₂, threads₂, settled₂, full, pos₂⟩ := whole_push (t := false) true reached₁
    (by rw [threads₁, threads₀]; rfl) settled₁ (by rw [one, empty]; decide)
  refine ⟨s₂, reached₂, (threads₂.trans threads₁).trans threads₀, settled₂, by omega, ?_⟩
  rw [pos₂, pos₁, pos₀]
  exact UInt64.zero_add _

/-- Its compare-exchange then claims a ticket of a full ring, and a push that has
just read the cursor is refused with three tickets out and no pop in a call. -/
private theorem refused_past_stale_exchange :
    ∃ s s' : System Bool Bool two, (machine Bool Bool two).Reachable Machine.anyStep s ∧
      s.ring.enqueuePos = s.ring.dequeuePos + 3 ∧
      (∀ t, ∀ r ∈ s.threads t, r.frame.request = .push true) ∧
      Command.Near (.run false false) (2 ^ 63) s ∧ s.next (.run false false) = some s' ∧
      ∃ id, s.calls id = some ⟨.push true, none, none⟩ ∧
        s'.calls id = some ⟨.push true, none, some (.pushed false)⟩ := by
  obtain ⟨s₀, reached₀, threads, settled, full, pos⟩ := full_around_halted
  have around : s₀.ring.enqueuePos = 0 := by
    rw [s₀.ring.enqueuePos_eq, full, pos]
    rfl
  have halts : s₀.threads true = some ⟨0, .push true (.exchange 0), 0⟩ := by
    rw [threads]
    rfl
  have idle : s₀.threads false = none := by
    rw [threads]
    rfl
  let s₁ := s₀.claimPush true ⟨0, .push true (.exchange 0), 0⟩ true
    { s₀.ring with enqueuePos := 1 } 0
  let s₂ := s₁.begin false (.push true)
  let s₃ := s₂.shift false ⟨s₁.issued, .push true (.loadSequence 1), s₁.enqueued⟩
  have claimed : s₀.next (.run true false) = some s₁ := by
    simp only [System.next, System.run, halts, MpmcRing.pushStep, around, if_true, and_self,
      System.afterPush]
    rfl
  have called : s₁.next (.call false (.push true)) = some s₂ := by
    have waiting : s₁.threads false = none := idle
    simp only [System.next, waiting]
    rfl
  have loaded : s₂.next (.run false false) = some s₃ := rfl
  have behind : (s₃.ring.slot 1).sequence = 0 := by
    have published := settled.published 1 (by omega)
    rw [pos] at published
    exact published
  have reached : (machine Bool Bool two).Reachable Machine.anyStep s₃ :=
    ((reached₀.tail ⟨.run true false, claimed, trivial⟩).tail
      ⟨.call false (.push true), called, trivial⟩).tail ⟨.run false false, loaded, trivial⟩
  have inside : s₃.threads false = some ⟨s₁.issued, .push true (.loadSequence 1), s₁.enqueued⟩ :=
    rfl
  have entry := (run_accounted reached).running false _ inside
  have refused : s₃.next (.run false false) = some ({ s₃ with ring := s₃.ring }.finish false
      s₁.issued (.pushed false)) := by
    have negative : Cursor.signedDiff 0 1 < 0 := by decide
    have nonzero : Cursor.signedDiff 0 1 ≠ 0 := by decide
    simp only [System.next, System.run, inside, MpmcRing.pushStep, behind, nonzero, negative,
      if_false, if_true, System.afterPush]
  refine ⟨s₃, _, reached, ?_, ?_, ?_, refused, s₁.issued, entry, ?_⟩
  · show 1 = s₀.ring.dequeuePos + 3
    rw [pos]
    decide
  · intro t r inside'
    cases t with
    | false => cases inside'; rfl
    | true => cases inside'; rfl
  · rintro r inside'
    cases inside'
    exact Nat.add_le_add_left (by decide) _
  · simp [System.finish, entry, Frame.request, Frame.claimed]

/-- A producer fills the ring; a consumer claims the first ticket and stalls. -/
def stalledConsumer : List (Command (Fin 3) Bool) :=
  [.call 0 (.push true), .run 0 false, .run 0 false, .run 0 false, .run 0 false, .run 0 false,
    .call 0 (.push false), .run 0 false, .run 0 false, .run 0 false, .run 0 false, .run 0 false,
    .call 1 .pop, .run 1 false, .run 1 false, .run 1 false]

/-- A call of the third thread after a schedule, checked at every instant. -/
private def observe (before : List (Command (Fin 3) Bool)) (request : Request Bool)
    (reply : Reply Bool) (check : System (Fin 3) Bool two → Bool) : Option Bool :=
  let m := machine (Fin 3) Bool two
  (m.exec m.start before).bind fun s =>
    (m.trace (s.begin 2 request) [.run 2 false, .run 2 false]).map fun instants =>
      (s.threads 2).isNone &&
      instants.dropLast.all (fun x => decide (x.calls s.issued = some ⟨request, none, none⟩)) &&
      decide ((instants.getLast?.map fun x => x.calls s.issued) =
        some (some ⟨request, none, some reply⟩)) &&
      (s.begin 2 request :: instants).all check

private theorem span_of_observe (before : List (Command (Fin 3) Bool)) (request : Request Bool)
    (reply : Reply Bool) (check : System (Fin 3) Bool two → Bool)
    (observed : observe before request reply check = some true) :
    ∃ s instants, Span s 2 request reply instants ∧
      ∀ x ∈ s.begin 2 request :: instants, check x = true ∧ Accounted x := by
  obtain ⟨s, ran, later⟩ := Option.bind_eq_some_iff.mp observed
  obtain ⟨instants, traced, checks⟩ := Option.map_eq_some_iff.mp later
  simp only [Bool.and_eq_true, Option.isNone_iff_eq_none, List.all_eq_true, decide_eq_true_eq]
    at checks
  obtain ⟨⟨⟨idle, running⟩, returned⟩, held⟩ := checks
  have reached := Machine.exec_reaches before ran
  have called : (machine (Fin 3) Bool two).Reachable Machine.anyStep (s.begin 2 request) :=
    reached.tail ⟨.call 2 request, by simp only [machine, System.next, idle], trivial⟩
  obtain ⟨last, final, entry⟩ := Option.map_eq_some_iff.mp returned
  refine ⟨s, instants, ⟨reached, idle, Machine.trace_chain _ traced,
    fun x member => ⟨none, running x member⟩, last, final, none, entry⟩, fun x member => ?_⟩
  refine ⟨held x member, ?_⟩
  rcases List.mem_cons.mp member with rfl | member
  · exact run_accounted called
  · exact run_accounted (called.trans (Machine.trace_reaches _ traced member))

/-- With two slots, a pop is refused while a returned push waits behind a
stalled one, a push is refused with one element in the ring while a pop is
stalled on the other slot, and a push that stood still for half a word of
tickets is refused by an empty ring with nobody else in a call. Once a
compare-exchange has gone through on a value a word of tickets old, even a push
that has just read the cursor is refused with three tickets out and no pop in a
call. -/
theorem refused_neither_empty_nor_full :
    ¬ EmptyWhenRefused (Fin 3) Bool two ∧ ¬ FullWhenRefused (Fin 3) Bool two ∧
    (∃ s s' : System Bool Bool two, (machine Bool Bool two).Reachable Machine.anyStep s ∧
      s.ring.enqueuePos = s.ring.dequeuePos ∧ s.threads false = none ∧
      s.next (.run true false) = some s' ∧
      s'.calls 0 = some ⟨.push true, none, some (.pushed false)⟩) ∧
    ∃ s s' : System Bool Bool two, (machine Bool Bool two).Reachable Machine.anyStep s ∧
      s.ring.enqueuePos = s.ring.dequeuePos + 3 ∧
      (∀ t, ∀ r ∈ s.threads t, r.frame.request = .push true) ∧
      Command.Near (.run false false) (2 ^ 63) s ∧ s.next (.run false false) = some s' ∧
      ∃ id, s.calls id = some ⟨.push true, none, none⟩ ∧
        s'.calls id = some ⟨.push true, none, some (.pushed false)⟩ := by
  refine ⟨fun claim => ?_, fun claim => ?_, stale_push_refused, refused_past_stale_exchange⟩
  · obtain ⟨s, instants, span, held⟩ := span_of_observe stalledProducer .pop (.popped none)
      (fun x => decide (x.dequeued = 0 ∧
        x.calls 1 = some ⟨.push false, some 1, some (.pushed true)⟩)) (by decide)
    obtain ⟨x, member, claimed⟩ := claim s 2 instants span
    obtain ⟨waiting, accounted⟩ := held x member
    obtain ⟨none, entry⟩ := of_decide_eq_true waiting
    have popped := (accounted.owned.pop 1).mpr (claimed 1 false 1 entry)
    omega
  · obtain ⟨s, instants, span, held⟩ := span_of_observe stalledConsumer (.push true)
      (.pushed false) (fun x => decide (x.enqueued = 2 ∧ x.dequeued = 1)) (by decide)
    obtain ⟨x, member, full⟩ := claim s 2 true instants span
    obtain ⟨enqueued, dequeued⟩ := of_decide_eq_true (held x member).1
    rw [enqueued, dequeued] at full
    cases full

end Ringio.MpmcSystem
