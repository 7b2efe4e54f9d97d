import Ringio.MpmcDelivery
import Ringio.MpmcSequential

/-! Who may touch which slot, and what is left when nobody does. A state without
calls in progress is one the sequential account of the ring applies to, so the
concurrent ring is a bounded queue again whenever it comes to rest. -/
namespace Ringio.MpmcSystem
open BoundedFifo

variable {Thread T : Type} {C : Capacity} {s : System Thread T C}
  {t t' : Thread} {r : Running T} {ticket : ℕ} {value : T}

/-- The slot a thread is between claiming and storing the sequence of. -/
def Frame.holds (C : Capacity) : Frame T → Option (Fin C.size)
  | .push _ (.writeValue pos) | .push _ (.storeSequence pos) => some (C.index pos)
  | .pop (.readValue pos) | .pop (.storeSequence pos _) => some (C.index pos)
  | _ => none

/-- The slot a frame holds is its ticket's. -/
theorem FrameSound.holds (sound : FrameSound s r) {i : Fin C.size}
    (held : r.frame.holds C = some i) :
    r.frame.claimed = true ∧ i = C.index (.ofNat r.seen) := by
  obtain ⟨call, frame, seen⟩ := r
  cases frame with
  | push value point =>
    cases point with
    | loadPos | loadSequence | exchange => cases held
    | writeValue pos | storeSequence pos =>
      cases held
      exact ⟨rfl, congrArg C.index sound.1⟩
  | pop point =>
    cases point with
    | loadPos | loadSequence | exchange => cases held
    | readValue pos | storeSequence pos out =>
      cases held
      exact ⟨rfl, congrArg C.index sound.1⟩

/-- A slot's sequence is the ticket it waits for, or one past the ticket whose
published element it still holds. -/
theorem Coherent.sequence_meaning (coherent : Coherent s) (accounted : Accounted s)
    (i : Fin C.size) :
    ∃ p, p % C.size = i ∧
      (s.turn i = p ∧ (∀ value, ¬ s.Published p value) ∨
        s.turn i = p + 1 ∧ s.Published p (s.ring.slots i).value ∧ ¬ s.Released p) := by
  obtain ⟨p, slot, state⟩ := coherent.slots i
  refine ⟨p, slot, ?_⟩
  cases state with
  | free turn unclaimed =>
    refine .inl ⟨turn, fun value published => ?_⟩
    have claimed := accounted.published_lt published
    omega
  | writing turn claimed unpopped owner =>
    obtain ⟨t, writing⟩ := owner
    exact .inl ⟨turn, accounted.writing_unpublished writing⟩
  | published turn claimed unpopped element =>
    refine .inr ⟨turn, element, ?_⟩
    rintro ⟨id, reply, entry⟩
    have popped := (accounted.owned.pop p).mpr ⟨id, _, entry⟩
    omega
  | reading turn popped lap element owner =>
    obtain ⟨t, reading⟩ := owner
    exact .inr ⟨turn, element, accounted.reading_unreleased reading⟩

/-! ## At rest -/

/-- With no call in progress every ticket between the cursors is published in
its slot and every later one of the lap is free. -/
theorem Coherent.at_rest (coherent : Coherent s) (rest : ∀ t, s.threads t = none)
    (ticket : ℕ) (from_ : s.dequeued ≤ ticket) (lap : ticket < s.dequeued + C.size) :
    (ticket < s.enqueued → s.turn (C.index (.ofNat ticket)) = ticket + 1 ∧
      s.Published ticket (s.ring.slots (C.index (.ofNat ticket))).value) ∧
    (s.enqueued ≤ ticket → s.turn (C.index (.ofNat ticket)) = ticket) := by
  have order := coherent.order
  have bound := coherent.bound
  obtain ⟨p, slot, state⟩ := coherent.slotAt ticket
  cases state with
  | free turn unclaimed near =>
    have same : p = ticket := Cursor.eq_of_mod_window slot (by omega) near from_ lap
    exact ⟨fun below => by omega, fun _ => by omega⟩
  | published turn claimed unpopped element =>
    have same : p = ticket := Cursor.eq_of_mod_window slot unpopped (by omega) from_ lap
    subst same
    exact ⟨fun _ => ⟨turn, element⟩, fun beyond => by omega⟩
  | writing _ _ _ owner =>
    obtain ⟨t, r, _, _, inside, _⟩ := owner
    rw [rest t] at inside
    cases inside
  | reading _ _ _ _ owner =>
    obtain ⟨t, r, _, inside, _⟩ := owner
    rw [rest t] at inside
    cases inside

theorem Coherent.count (coherent : Coherent s) : s.ring.count = s.enqueued - s.dequeued := by
  have bound := coherent.bound
  have small := C.size_le
  rw [MpmcRing.count, coherent.cursors.enqueue, coherent.cursors.dequeue]
  exact Cursor.toNat_sub coherent.order (by omega)

theorem Coherent.settled (coherent : Coherent s) (rest : ∀ t, s.threads t = none) :
    s.ring.Settled := by
  have order := coherent.order
  have bound := coherent.bound
  have count := coherent.count
  have at_ (offset : ℕ) : s.ring.dequeuePos + .ofNat offset = .ofNat (s.dequeued + offset) := by
    rw [coherent.cursors.dequeue, UInt64.ofNat_add]
  refine ⟨by omega, fun offset below => ?_, fun offset beyond inside => ?_⟩
  · have turn := (coherent.at_rest rest (s.dequeued + offset) (by omega) (by omega)).1
      (by omega)
    rw [at_, at_, MpmcRing.slot, coherent.cursors.sequence, turn.1, Nat.add_assoc]
  · have turn := (coherent.at_rest rest (s.dequeued + offset) (by omega) (by omega)).2
      (by omega)
    rw [at_, MpmcRing.slot, coherent.cursors.sequence, turn]

/-- The elements held at rest are the pushed values no pop has claimed. -/
theorem Coherent.held_at_rest (coherent : Coherent s) (rest : ∀ t, s.threads t = none)
    (offset : ℕ) (below : s.dequeued + offset < s.enqueued) :
    ∃ value, s.ring.held[offset]? = some value ∧ s.Published (s.dequeued + offset) value := by
  have bound := coherent.bound
  have count := coherent.count
  have element := ((coherent.at_rest rest (s.dequeued + offset) (by omega)
    (by omega)).1 below).2
  refine ⟨_, ?_, element⟩
  rw [UInt64.ofNat_add, ← coherent.cursors.dequeue]
  simp only [MpmcRing.held, Capacity.window, List.getElem?_map]
  rw [List.getElem?_range (by omega)]
  rfl

/-! ## A call nobody disturbs -/

variable [DecidableEq Thread]

/-- The thread's call has ended: the ring is this, the thread is out, and the
record has the answer. -/
structure Ended (s s' : System Thread T C) (t : Thread) (call : ℕ) (request : Request T)
    (reply : Reply T) (ring : MpmcRing T C) : Prop where
  ring : s'.ring = ring
  threads : s'.threads = Function.update s.threads t none
  answer : ∃ ticket, s'.calls call = some ⟨request, ticket, some reply⟩

/-- What the record adds to a step of `try_push` that does not return. -/
private theorem afterPush_running (t : Thread) (r : Running T) (ring : MpmcRing T C)
    (point : PushPoint) {ticket : Option ℕ}
    (entry : s.calls r.call = some ⟨.push value, ticket, none⟩) :
    ∃ seen ticket', (s.afterPush t r value ring (.running point)).threads =
        Function.update s.threads t (some ⟨r.call, .push value point, seen⟩) ∧
      (s.afterPush t r value ring (.running point)).ring = ring ∧
      (s.afterPush t r value ring (.running point)).calls r.call =
        some ⟨.push value, ticket', none⟩ := by
  cases point with
  | writeValue pos =>
    exact ⟨s.enqueued, some s.enqueued, rfl, rfl, by simp [System.afterPush, System.claimPush,
      System.shift, System.own, entry]⟩
  | loadPos | loadSequence | exchange | storeSequence => exact ⟨_, ticket, rfl, rfl, entry⟩

private theorem afterPop_running (t : Thread) (r : Running T) (ring : MpmcRing T C)
    (point : PopPoint T) {ticket : Option ℕ}
    (entry : s.calls r.call = some ⟨.pop, ticket, none⟩) :
    ∃ seen ticket', (s.afterPop t r ring (.running point)).threads =
        Function.update s.threads t (some ⟨r.call, .pop point, seen⟩) ∧
      (s.afterPop t r ring (.running point)).ring = ring ∧
      (s.afterPop t r ring (.running point)).calls r.call = some ⟨.pop, ticket', none⟩ := by
  cases point with
  | readValue pos =>
    exact ⟨s.dequeued, some s.dequeued, rfl, rfl, by simp [System.afterPop, System.claimPop,
      System.shift, System.own, entry]⟩
  | loadPos | loadSequence | exchange | storeSequence => exact ⟨_, ticket, rfl, rfl, entry⟩

private theorem afterPush_returned {ticket : Option ℕ} {accepted : Bool} {ring : MpmcRing T C}
    (entry : s.calls r.call = some ⟨.push value, ticket, none⟩) :
    Ended s (s.afterPush t r value ring (.returned accepted)) t r.call (.push value)
      (.pushed accepted) ring := by
  cases accepted with
  | true =>
    exact ⟨rfl, rfl, ticket, by simp [System.afterPush, System.handOver, System.finish, entry]⟩
  | false => exact ⟨rfl, rfl, ticket, by simp [System.afterPush, System.finish, entry]⟩

private theorem afterPop_returned {ticket : Option ℕ} {given : Option T} {ring : MpmcRing T C}
    (entry : s.calls r.call = some ⟨.pop, ticket, none⟩) :
    Ended s (s.afterPop t r ring (.returned given)) t r.call .pop (.popped given) ring := by
  cases given with
  | some out =>
    exact ⟨rfl, rfl, ticket, by simp [System.afterPop, System.handOver, System.finish, entry]⟩
  | none => exact ⟨rfl, rfl, ticket, by simp [System.afterPop, System.finish, entry]⟩

variable [Inhabited T]

/-- A thread alone goes through its `try_push` as `runPush` does. -/
theorem push_alone {fuel call seen : ℕ} {ticket : Option ℕ} {point : PushPoint}
    {done : Bool × MpmcRing T C}
    (inside : s.threads t = some ⟨call, .push value point, seen⟩)
    (entry : s.calls call = some ⟨.push value, ticket, none⟩)
    (ran : MpmcRing.runPush value fuel 0 s.ring point = some done) :
    ∃ steps s', (machine Thread T C).exec s (List.replicate steps (.run t false)) = some s' ∧
      Ended s s' t call (.push value) (.pushed done.1) done.2 := by
  induction fuel generalizing s point seen ticket with
  | zero => cases ran
  | succ fuel ih =>
    have moved : s.next (.run t false) = some (s.afterPush t ⟨call, .push value point, seen⟩ value
        (s.ring.pushStep value false point).1 (s.ring.pushStep value false point).2) := by
      simp only [System.next, System.run, inside]
    simp only [MpmcRing.runPush, lt_irrefl, decide_false, Nat.zero_sub] at ran
    revert moved ran
    rcases s.ring.pushStep value false point with ⟨ring, point' | accepted⟩
    · intro moved ran
      obtain ⟨seen', ticket', threads, same, entry'⟩ :=
        afterPush_running t ⟨call, .push value point, seen⟩ ring point' entry
      obtain ⟨steps, s', later, ended⟩ := ih (by rw [threads, Function.update_self]) entry'
        (by rw [same]; exact ran)
      refine ⟨steps + 1, s', (congrArg (Option.bind · _) moved).trans later, ended.ring, ?_,
        ended.answer⟩
      rw [ended.threads, threads, Function.update_idem]
    · intro moved ran
      cases ran
      exact ⟨1, _, congrArg (Option.bind · _) moved, afterPush_returned entry⟩

/-- A thread alone goes through its `try_pop` as `runPop` does. -/
theorem pop_alone {fuel call seen : ℕ} {ticket : Option ℕ} {point : PopPoint T}
    {done : Option T × MpmcRing T C} (inside : s.threads t = some ⟨call, .pop point, seen⟩)
    (entry : s.calls call = some ⟨.pop, ticket, none⟩)
    (ran : MpmcRing.runPop fuel 0 s.ring point = some done) :
    ∃ steps s', (machine Thread T C).exec s (List.replicate steps (.run t false)) = some s' ∧
      Ended s s' t call .pop (.popped done.1) done.2 := by
  induction fuel generalizing s point seen ticket with
  | zero => cases ran
  | succ fuel ih =>
    have moved : s.next (.run t false) = some (s.afterPop t ⟨call, .pop point, seen⟩
        (s.ring.popStep false point).1 (s.ring.popStep false point).2) := by
      simp only [System.next, System.run, inside]
    simp only [MpmcRing.runPop, lt_irrefl, decide_false, Nat.zero_sub] at ran
    revert moved ran
    rcases s.ring.popStep false point with ⟨ring, point' | given⟩
    · intro moved ran
      obtain ⟨seen', ticket', threads, same, entry'⟩ :=
        afterPop_running t ⟨call, .pop point, seen⟩ ring point' entry
      obtain ⟨steps, s', later, ended⟩ := ih (by rw [threads, Function.update_self]) entry'
        (by rw [same]; exact ran)
      refine ⟨steps + 1, s', (congrArg (Option.bind · _) moved).trans later, ended.ring, ?_,
        ended.answer⟩
      rw [ended.threads, threads, Function.update_idem]
    · intro moved ran
      cases ran
      exact ⟨1, _, congrArg (Option.bind · _) moved, afterPop_returned entry⟩

/-- A whole call by an idle thread that nobody disturbs is the sequential one. -/
theorem call_alone {fuel : ℕ} {request : Request T} {reply : Reply T} {ring : MpmcRing T C}
    (idle : s.threads t = none) (ran : s.ring.call fuel 0 request = some (reply, ring)) :
    ∃ steps s', (machine Thread T C).exec s
        (.call t request :: List.replicate steps (.run t false)) = some s' ∧
      s'.ring = ring ∧ s'.threads = s.threads ∧
      ∃ ticket, s'.calls s.issued = some ⟨request, ticket, some reply⟩ := by
  have moved : s.next (.call t request) = some (s.begin t request) := by
    simp only [System.next, idle]
  have inside : (s.begin t request).threads t = some ⟨s.issued, System.entry request, 0⟩ :=
    Function.update_self ..
  have entry : (s.begin t request).calls s.issued = some ⟨request, none, none⟩ :=
    Function.update_self ..
  have back {s' : System Thread T C}
      (out : s'.threads = Function.update (s.begin t request).threads t none) :
      s'.threads = s.threads := by
    rw [out, System.begin, Function.update_idem, ← idle, Function.update_eq_self]
  cases request with
  | push value =>
    obtain ⟨done, inner, same⟩ := Option.map_eq_some_iff.mp ran
    cases same
    obtain ⟨steps, s', later, ended⟩ := push_alone inside entry inner
    exact ⟨steps, s', (congrArg (Option.bind · _) moved).trans later, ended.ring,
      back ended.threads, ended.answer⟩
  | pop =>
    obtain ⟨done, inner, same⟩ := Option.map_eq_some_iff.mp ran
    cases same
    obtain ⟨steps, s', later, ended⟩ := pop_alone inside entry inner
    exact ⟨steps, s', (congrArg (Option.bind · _) moved).trans later, ended.ring,
      back ended.threads, ended.answer⟩

/-- **Representation invariant and exclusive ownership.** In every state reached
by any number of threads with cursors below `2 ^ 63`, the cursors are at most a
lap apart, each sequence names the ticket its slot waits for or still holds,
and no two threads are between claim and sequence store on one slot. At rest
the slots between the cursors hold the values no pop has claimed, in order, and
the next call, whoever makes it and however often it fails spuriously, answers
as the bounded queue with that content. -/
theorem slots_exclusively_owned (several : 2 ≤ C.size)
    (reached : (machine Thread T C).Reachable smallCursors s) :
    s.ring.dequeuePos.toNat ≤ s.ring.enqueuePos.toNat ∧
    s.ring.enqueuePos.toNat ≤ s.ring.dequeuePos.toNat + C.size ∧
    (∀ i : Fin C.size, ∃ p, p % C.size = i ∧
      ((s.ring.slots i).sequence.toNat = p ∧ (∀ value, ¬ s.Published p value) ∨
        (s.ring.slots i).sequence.toNat = p + 1 ∧ s.Published p (s.ring.slots i).value ∧
          ¬ s.Released p)) ∧
    (∀ t t' r r' i, s.threads t = some r → s.threads t' = some r' → r.frame.holds C = some i →
      r'.frame.holds C = some i → t = t') ∧
    ((∀ t, s.threads t = none) →
      s.ring.held.length = s.ring.enqueuePos.toNat - s.ring.dequeuePos.toNat ∧
      (∀ ticket, s.ring.dequeuePos.toNat ≤ ticket → ticket < s.ring.enqueuePos.toNat →
        ∃ value, s.ring.held[ticket - s.ring.dequeuePos.toNat]? = some value ∧
          s.Published ticket value ∧ ∀ id, ¬ s.ClaimedPop id ticket) ∧
      ∀ request,
        (∀ spurious fuel, 2 * spurious + 5 ≤ fuel →
          ∃ reply ring, s.ring.call fuel spurious request = some (reply, ring) ∧
            answer C.size s.ring.held request = (reply, ring.held)) ∧
        ∀ t, ∃ steps s', (machine Thread T C).exec s
            (.call t request :: List.replicate steps (.run t false)) = some s' ∧
          (∀ t', s'.threads t' = none) ∧
          ∃ ticket reply, s'.calls s.issued = some ⟨request, ticket, some reply⟩ ∧
            answer C.size s.ring.held request = (reply, s'.ring.held)) := by
  have sound := run_sound several reached
  have coherent := sound.coherent
  have accounted := sound.accounted
  have small := sound.enqueued
  have dequeuedSmall := sound.dequeued
  have sizeSmall := C.size_le
  rw [sound.enqueuePos, sound.dequeuePos]
  refine ⟨coherent.order, coherent.bound, fun i => ?_, ?_, fun rest => ⟨?_, ?_, ?_⟩⟩
  · obtain ⟨p, slot, meaning⟩ := coherent.sequence_meaning accounted i
    have near := (coherent.turn_bounds i).2.1
    rw [coherent.cursors.sequence, UInt64.toNat_ofNat', Nat.mod_eq_of_lt (by omega)]
    exact ⟨p, slot, meaning⟩
  · intro t t' r r' i inside inside' held held'
    obtain ⟨claimed, own⟩ := (coherent.frames t r inside).holds held
    obtain ⟨claimed', own'⟩ := (coherent.frames t' r' inside').holds held'
    exact coherent.exclusive accounted several inside inside' claimed claimed' (own.symm.trans own')
  · rw [MpmcRing.length_held, coherent.count]
  · intro ticket from_ below
    obtain ⟨offset, rfl⟩ := Nat.exists_eq_add_of_le from_
    obtain ⟨value, held, published⟩ := coherent.held_at_rest rest offset below
    refine ⟨value, by rw [Nat.add_sub_cancel_left]; exact held, published, fun id claimed => ?_⟩
    have popped := (accounted.owned.pop _).mpr ⟨id, claimed⟩
    omega
  · intro request
    have settled := coherent.settled rest
    refine ⟨fun spurious fuel enough => ?_, fun t => ?_⟩
    · obtain ⟨reply, ring, ran, -, answered, -⟩ :=
        settled.call_refines several request spurious fuel enough
      exact ⟨reply, ring, ran, answered⟩
    · obtain ⟨reply, ring, ran, -, answered, -⟩ := settled.call_refines several request 0 5 le_rfl
      obtain ⟨steps, s', later, same, threads, ticket, entry⟩ := call_alone (rest t) ran
      exact ⟨steps, s', later, fun t' => by rw [threads, rest], ticket, reply, entry,
        by rw [same]; exact answered⟩

/-- The overlapping producers and their consumer come to rest with the second
element in the ring, and a pop by any thread then returns it. -/
theorem slots_exclusively_owned_overlapping :
    let two := machine (Fin 4) Bool ⟨2, by decide, by decide⟩
    ∃ s, two.execWithin smallCursors two.start (overlapping ++ [.run 2 false, .run 2 false]) =
        some s ∧
      s.ring.held = [false] ∧ (∀ t, s.threads t = none) ∧
      s.ring.enqueuePos.toNat ≤ s.ring.dequeuePos.toNat + 2 ∧
      ∀ t, ∃ steps s', two.exec s (.call t .pop :: List.replicate steps (.run t false)) = some s' ∧
        ∃ ticket reply, s'.calls s.issued = some ⟨.pop, ticket, some reply⟩ ∧
          answer 2 [false] .pop = (reply, s'.ring.held) := by
  intro two
  have ends : (two.execWithin smallCursors two.start
      (overlapping ++ [.run 2 false, .run 2 false])).map (fun s =>
        (s.ring.held, decide (∀ t, (s.threads t).isNone = true))) = some ([false], true) := by
    decide
  obtain ⟨s, ran, shape⟩ := Option.map_eq_some_iff.mp ends
  simp only [Prod.mk.injEq, decide_eq_true_eq, Option.isNone_iff_eq_none] at shape
  obtain ⟨held, rest⟩ := shape
  have results := slots_exclusively_owned (by decide) (Machine.execWithin_reaches _ ran)
  obtain ⟨-, bound, -, -, atRest⟩ := results
  refine ⟨s, ran, held, rest, bound, fun t => ?_⟩
  obtain ⟨steps, s', later, -, answered⟩ := ((atRest rest).2.2 .pop).2 t
  exact ⟨steps, s', later, held ▸ answered⟩

end Ringio.MpmcSystem
