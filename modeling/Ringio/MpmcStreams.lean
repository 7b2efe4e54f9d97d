import Ringio.Interleaving
import Ringio.MpmcDelivery

/-! Many producers and one consumer on an `MpmcRing`, one shared access at a
time: what each producer has sent and what the consumer has received. Tickets
number the elements of all producers from one count, so what is received is an
interleaving of what was sent. -/
namespace Ringio.MpmcStreams
open BoundedFifo MpmcSystem Interleaving

variable {Producer T : Type} [DecidableEq Producer] {C : Capacity}

/-- The ring with its threads, the consumer's being `none`; the elements of the
`try_push` calls that returned true, with their tickets, and of the `try_pop`
calls that returned true. -/
structure Streams (Producer T : Type) (C : Capacity) where
  system : System (Option Producer) T C
  sent : Producer → List (ℕ × T)
  received : List T

/-- A producer starts a `try_push` or makes the next access of the one it is in;
the consumer starts a `try_pop` or makes the next access of it. -/
inductive Command (Producer T : Type) where
  | send (producer : Producer) (value : T)
  | push (producer : Producer) (spurious : Bool)
  | receive
  | pop (spurious : Bool)

/-- What a `try_push` sends with its next access: its element, if that access is
the last. -/
def sending (ring : MpmcRing T C) (spurious : Bool) (r : Running T) : List (ℕ × T) :=
  match r.frame with
  | .push value point =>
    match (ring.pushStep value spurious point).2 with
    | .returned true => [(r.seen, value)]
    | _ => []
  | .pop _ => []

/-- What a `try_pop` returns with its next access, if that access is the last. -/
def popReply (ring : MpmcRing T C) (spurious : Bool) (r : Running T) : Option (Option T) :=
  match r.frame with
  | .pop point =>
    match (ring.popStep spurious point).2 with
    | .returned out => some out
    | .running _ => none
  | .push _ _ => none

namespace Streams

def send (s : Streams Producer T C) (p : Producer) (value : T) : Option (Streams Producer T C) :=
  (s.system.next (.call (some p) (.push value))).map fun system => { s with system := system }

def push (s : Streams Producer T C) (p : Producer) (spurious : Bool) :
    Option (Streams Producer T C) :=
  (s.system.threads (some p)).bind fun r =>
    (s.system.next (.run (some p) spurious)).map fun system =>
      { s with
        system := system
        sent := Function.update s.sent p (s.sent p ++ sending s.system.ring spurious r) }

def receive (s : Streams Producer T C) : Option (Streams Producer T C) :=
  (s.system.next (.call none .pop)).map fun system => { s with system := system }

def pop (s : Streams Producer T C) (spurious : Bool) : Option (Streams Producer T C) :=
  (s.system.threads none).bind fun r =>
    (s.system.next (.run none spurious)).map fun system =>
      { s with
        system := system
        received := s.received ++ ((popReply s.system.ring spurious r).getD none).toList }

def next (s : Streams Producer T C) : Command Producer T → Option (Streams Producer T C)
  | .send p value => s.send p value
  | .push p spurious => s.push p spurious
  | .receive => s.receive
  | .pop spurious => s.pop spurious

end Streams

/-- A fresh ring, nothing sent. -/
def machine (Producer T : Type) [DecidableEq Producer] [Inhabited T] (C : Capacity) :
    Machine (Streams Producer T C) (Command Producer T) where
  start := ⟨(MpmcSystem.machine (Option Producer) T C).start, fun _ => [], []⟩
  next := Streams.next

/-- Runs whose cursors stay below `2 ^ 63`. -/
def small (_ : Streams Producer T C) (_ : Command Producer T) (s' : Streams Producer T C) : Prop :=
  s'.system.ring.enqueuePos.toNat < 2 ^ 63 ∧ s'.system.ring.dequeuePos.toNat < 2 ^ 63

instance (s : Streams Producer T C) (command : Command Producer T) (s' : Streams Producer T C) :
    Decidable (small s command s') :=
  inferInstanceAs (Decidable (_ ∧ _))

/-! ## What an access does to the record -/

section
variable {Thread : Type} [DecidableEq Thread] {x x' : System Thread T C} {t t' : Thread}
  {r r' : Running T} {spurious : Bool} {ticket : ℕ} {value : T}

/-- An access is its own thread's, and the thread goes on with what it was called
with. -/
theorem run_threads (moved : x.next (.run t spurious) = some x') :
    ∃ r after, x.threads t = some r ∧ x'.threads = Function.update x.threads t after ∧
      ∀ r', after = some r' → r'.frame.request = r.frame.request := by
  simp only [System.next, System.run] at moved
  split at moved
  · cases moved
  · rename_i r inside
    split at moved
    · rename_i value point frame
      cases moved
      simp only [System.afterPush]
      split
      all_goals
        refine ⟨r, _, inside, rfl, ?_⟩
        rintro r' same
        cases same
        try rw [frame]; rfl
    · rename_i point frame
      cases moved
      simp only [System.afterPop]
      split
      all_goals
        refine ⟨r, _, inside, rfl, ?_⟩
        rintro r' same
        cases same
        try rw [frame]; rfl

theorem run_others (moved : x.next (.run t spurious) = some x') (other : t' ≠ t) :
    x'.threads t' = x.threads t' :=
  other_step moved other.symm

/-- A new owner of a push ticket has the one at the cursor. -/
theorem writing_origin (step : Booked x x') (now : Writing x'.threads t ticket) :
    Writing x.threads t ticket ∨ ticket = x.enqueued := by
  obtain ⟨r, value, point, inside, frame, claimed, rfl⟩ := now
  have apart {t' : Thread} {after : Option (Running T)}
      (threads : x'.threads = Function.update x.threads t' after) (other : t ≠ t') :
      Writing x.threads t r.seen := by
    rw [threads, Function.update_of_ne other] at inside
    exact ⟨r, value, point, inside, frame, claimed, rfl⟩
  have self {t' : Thread} {after : Option (Running T)}
      (threads : x'.threads = Function.update x.threads t' after) (own : t = t') :
      after = some r := by
    rw [threads, own, Function.update_self] at inside
    exact inside
  cases step with
  | @begin t' request idle =>
    by_cases own : t = t'
    · have entered := self rfl own
      cases entered
      cases request <;> cases claimed
    · exact .inl (apart rfl own)
  | @shift t' old new ring inside' call request kept seen =>
    by_cases own : t = t'
    · have entered := self rfl own
      cases entered
      subst own
      rw [frame] at request
      rw [claimed] at kept
      obtain ⟨call', oldFrame, seen'⟩ := old
      cases oldFrame with
      | push value' point' => exact .inl ⟨_, value', point', inside', rfl, kept.symm,
          (seen kept.symm).symm⟩
      | pop point' => cases request
    · exact .inl (apart rfl own)
  | @claimPush t' old value' point' pos ring inside' =>
    by_cases own : t = t'
    · have entered := self rfl own
      cases entered
      exact .inr rfl
    · exact .inl (apart rfl own)
  | @claimPop t' old point' pos ring inside' =>
    by_cases own : t = t'
    · have entered := self rfl own
      cases entered
      cases frame
    · exact .inl (apart rfl own)
  | @refuse t' old ring reply inside' unclaimed reason =>
    by_cases own : t = t'
    · cases self rfl own
    · exact .inl (apart rfl own)
  | @publish t' old value' pos ring turn inside' =>
    by_cases own : t = t'
    · cases self rfl own
    · exact .inl (apart rfl own)
  | @release t' old out pos ring turn inside' =>
    by_cases own : t = t'
    · cases self rfl own
    · exact .inl (apart rfl own)

/-- A ticket published by an access is that of its thread, at the sequence store. -/
theorem published_run (accounted : Accounted x) (moved : x.next (.run t spurious) = some x')
    (now : x'.Published ticket value) :
    x.Published ticket value ∨
      ∃ r pos, x.threads t = some r ∧ r.frame = .push value (.storeSequence pos) ∧
        r.seen = ticket := by
  obtain ⟨id, closed⟩ := now
  have step := booked moved
  rcases closed_origin accounted step closed with
    before |
    ⟨t', r, inside, own, request, ⟨none, -⟩ | ⟨_, pos, frame, ticketed, -⟩ | ⟨_, _, -, -, wrong⟩⟩
  · exact .inl ⟨id, before⟩
  · cases none
  · right
    have mover : t' = t := by
      by_contra other
      have still := (run_others moved other).trans inside
      have open_ := (step_accounted accounted step).running t' r still
      rw [own, closed] at open_
      simp at open_
    subst mover
    rw [frame] at request
    cases request
    cases ticketed
    exact ⟨r, pos, inside, frame, rfl⟩
  · cases wrong

/-- The sequence store publishes and returns. -/
theorem publishes (accounted : Accounted x) (inside : x.threads t = some r) {pos : UInt64}
    (frame : r.frame = .push value (.storeSequence pos))
    (moved : x.next (.run t spurious) = some x') :
    x'.Published r.seen value ∧ x'.threads t = none := by
  have entry := accounted.running t r inside
  simp only [System.next, System.run, inside, frame, MpmcRing.pushStep, System.afterPush] at moved
  cases moved
  refine ⟨⟨r.call, ?_⟩, Function.update_self ..⟩
  simp only [System.handOver, System.finish, Function.update_self, entry, frame, Frame.claimed,
    Frame.request, if_true, Option.map_some]

theorem published_begin {request : Request T}
    (now : (x.begin t request).Published ticket value) : x.Published ticket value := by
  obtain ⟨id, closed⟩ := now
  by_cases new : id = x.issued
  · subst new
    simp [System.begin] at closed
  · exact ⟨id, by simpa [System.begin, new] using closed⟩

/-- A `try_push` leaves the consumers' cursor alone. -/
theorem run_push_dequeued (inside : x.threads t = some r) (request : r.frame.request = .push value)
    (moved : x.next (.run t spurious) = some x') : x'.dequeued = x.dequeued := by
  obtain ⟨call, frame, seen⟩ := r
  cases frame with
  | pop point => cases request
  | push value' point =>
    simp only [System.next, System.run, inside] at moved
    cases moved
    simp only [System.afterPush]
    split
    all_goals rfl

theorem call_begin {request : Request T} (moved : x.next (.call t request) = some x') :
    x.threads t = none ∧ x' = x.begin t request := by
  simp only [System.next] at moved
  split at moved
  · rename_i idle
    cases moved
    exact ⟨idle, rfl⟩
  · cases moved

end

/-! ## The producers' side -/

variable {x x' : System (Option Producer) T C} {sent : Producer → List (ℕ × T)}
  {received : List T} {p : Producer} {spurious : Bool} {s s' : Streams Producer T C}

/-- What has been published has been sent, by one producer, in the order of the
tickets; a producer with a ticket is past those it has sent. -/
structure Sends (x : System (Option Producer) T C) (sent : Producer → List (ℕ × T)) : Prop where
  producers : ∀ p r, x.threads (some p) = some r → ∃ value, r.frame.request = .push value
  increasing : ∀ p, (sent p).Pairwise (·.1 < ·.1)
  published : ∀ ticket value, x.Published ticket value ↔ ∃ p, (ticket, value) ∈ sent p
  apart : ∀ p q, ∀ a ∈ sent p, ∀ b ∈ sent q, a.1 = b.1 → p = q
  ahead : ∀ p ticket, Writing x.threads (some p) ticket → ∀ a ∈ sent p, a.1 < ticket

/-- A step that publishes nothing. -/
theorem Sends.quiet (sends : Sends x sent) (accounted : Accounted x) (step : Booked x x')
    (producers : ∀ p r, x'.threads (some p) = some r → ∃ value, r.frame.request = .push value)
    (same : ∀ ticket value, x'.Published ticket value → x.Published ticket value) :
    Sends x' sent := by
  refine ⟨producers, sends.increasing, fun ticket value => ⟨fun now => ?_, fun member => ?_⟩,
    sends.apart, fun p ticket owner a member => ?_⟩
  · exact (sends.published ticket value).mp (same ticket value now)
  · exact published_step accounted step ((sends.published ticket value).mpr member)
  · rcases writing_origin step owner with before | rfl
    · exact sends.ahead p ticket before a member
    · exact accounted.published_lt ((sends.published a.1 a.2).mpr ⟨p, member⟩)

/-- The producer whose access publishes sends its element. -/
theorem Sends.publish (sends : Sends x sent) (sound : Sound x) {r : Running T}
    (inside : x.threads (some p) = some r) {value : T} {pos : UInt64}
    (frame : r.frame = .push value (.storeSequence pos))
    (moved : x.next (.run (some p) spurious) = some x') :
    Sends x' (Function.update sent p (sent p ++ [(r.seen, value)])) := by
  have accounted := sound.accounted
  have step := booked moved
  obtain ⟨published, left⟩ := publishes accounted inside frame moved
  have owner : Writing x.threads (some p) r.seen :=
    ⟨r, value, _, inside, frame, by rw [frame]; rfl, rfl⟩
  have unpublished := accounted.writing_unpublished owner
  have sentOf (q : Producer) (a : ℕ × T) :
      a ∈ Function.update sent p (sent p ++ [(r.seen, value)]) q ↔
        a ∈ sent q ∨ q = p ∧ a = (r.seen, value) := by
    by_cases own : q = p
    · subst own
      simp
    · simp [own]
  refine ⟨?_, ?_, fun ticket value' => ⟨fun now => ?_, ?_⟩, ?_, ?_⟩
  · intro q r' still
    by_cases own : some q = some p
    · rw [own, left] at still
      cases still
    · rw [run_others moved own] at still
      exact sends.producers q r' still
  · intro q
    by_cases own : q = p
    · subst own
      rw [Function.update_self, List.pairwise_append]
      refine ⟨sends.increasing q, List.pairwise_singleton _ _, ?_⟩
      simp only [List.mem_singleton]
      rintro a member _ rfl
      exact sends.ahead q r.seen owner a member
    · rw [Function.update_of_ne own]
      exact sends.increasing q
  · simp only [sentOf]
    rcases published_run accounted moved now with before | ⟨r', pos', inside', frame', rfl⟩
    · exact ((sends.published ticket value').mp before).imp fun _ => .inl
    · rw [inside] at inside'
      cases inside'
      rw [frame] at frame'
      cases frame'
      exact ⟨p, .inr ⟨rfl, rfl⟩⟩
  · simp only [sentOf]
    rintro ⟨q, before | ⟨rfl, now⟩⟩
    · exact published_step accounted step ((sends.published ticket value').mpr ⟨q, before⟩)
    · cases now
      exact published
  · intro q q' a member b member' same
    have old {q : Producer} {a : ℕ × T} (before : a ∈ sent q) : a.1 ≠ r.seen := fun equal =>
      unpublished a.2 (equal ▸ (sends.published a.1 a.2).mpr ⟨q, before⟩)
    rcases (sentOf q a).mp member with before | ⟨rfl, rfl⟩
    · rcases (sentOf q' b).mp member' with before' | ⟨rfl, rfl⟩
      · exact sends.apart q q' a before b before' same
      · exact absurd same (old before)
    · rcases (sentOf q' b).mp member' with before' | ⟨rfl, rfl⟩
      · exact absurd same.symm (old before')
      · rfl
  · intro q ticket writer a member
    have other : q ≠ p := by
      rintro rfl
      obtain ⟨r', _, _, still, -⟩ := writer
      rw [left] at still
      cases still
    have before := ((sentOf q a).mp member).resolve_right fun new => other new.1
    rcases writing_origin step writer with writing | rfl
    · exact sends.ahead q ticket writing a before
    · exact accounted.published_lt ((sends.published a.1 a.2).mpr ⟨q, before⟩)

/-! ## The consumer's side -/

/-- The ticket a call has claimed and not finished with, counted. -/
def inHand : Option (Running T) → ℕ
  | some r => if r.frame.claimed then 1 else 0
  | none => 0

/-- The consumer has received the published elements from the first ticket on,
each under its own, and a ticket it holds is the next. -/
structure Receives (x : System (Option Producer) T C) (received : List T) : Prop where
  consumer : ∀ r, x.threads none = some r → r.frame.request = .pop
  taken : ∀ n a, received[n]? = some a → x.Published n a
  count : received.length + inHand (x.threads none) = x.dequeued
  mine : ∀ r, x.threads none = some r → r.frame.claimed = true → r.seen = received.length

/-- A step that is not the consumer's. -/
theorem Receives.quiet (receives : Receives x received) (accounted : Accounted x)
    (step : Booked x x') (same : x'.threads none = x.threads none)
    (dequeued : x'.dequeued = x.dequeued) : Receives x' received where
  consumer := by
    rw [same]
    exact receives.consumer
  taken n a found := published_step accounted step (receives.taken n a found)
  count := by
    rw [same, dequeued]
    exact receives.count
  mine := by
    rw [same]
    exact receives.mine

/-- What an access of a `try_pop` does: it goes on, claims the ticket at the cursor,
gives up, or returns the element of the ticket it has. -/
inductive PopMoved (x : System (Option Producer) T C) (r : Running T)
    (x' : System (Option Producer) T C) : Option (Option T) → Prop where
  | shift {r' : Running T} (onward : x'.threads none = some r') (request : r'.frame.request = .pop)
      (claimed : r'.frame.claimed = r.frame.claimed)
      (seen : r.frame.claimed = true → r'.seen = r.seen) (dequeued : x'.dequeued = x.dequeued) :
      PopMoved x r x' none
  | claim {r' : Running T} (onward : x'.threads none = some r') (request : r'.frame.request = .pop)
      (unclaimed : r.frame.claimed = false) (claimed : r'.frame.claimed = true)
      (seen : r'.seen = x.dequeued) (dequeued : x'.dequeued = x.dequeued + 1) :
      PopMoved x r x' none
  | refuse (left : x'.threads none = none) (unclaimed : r.frame.claimed = false)
      (dequeued : x'.dequeued = x.dequeued) : PopMoved x r x' (some none)
  | release {pos : UInt64} {out : T} (frame : r.frame = .pop (.storeSequence pos out))
      (left : x'.threads none = none) (dequeued : x'.dequeued = x.dequeued) :
      PopMoved x r x' (some (some out))

theorem popMoved {r : Running T} (inside : x.threads none = some r)
    (request : r.frame.request = .pop) (moved : x.next (.run none spurious) = some x') :
    PopMoved x r x' (popReply x.ring spurious r) := by
  obtain ⟨call, frame, seen⟩ := r
  simp only [System.next, System.run, inside] at moved
  cases frame with
  | push value point => cases request
  | pop point =>
    simp only [popReply]
    cases moved
    cases point with
    | loadPos => exact .shift (Function.update_self none _ x.threads) rfl rfl (fun owns => by cases owns) rfl
    | loadSequence pos =>
      simp only [MpmcRing.popStep]
      split
      · exact .shift (Function.update_self none _ x.threads) rfl rfl (fun owns => by cases owns) rfl
      · split
        · exact .refuse (Function.update_self none _ x.threads) rfl rfl
        · exact .shift (Function.update_self none _ x.threads) rfl rfl (fun owns => by cases owns) rfl
    | exchange pos =>
      simp only [MpmcRing.popStep]
      split
      · exact .claim (Function.update_self none _ x.threads) rfl rfl rfl rfl rfl
      · exact .shift (Function.update_self none _ x.threads) rfl rfl (fun owns => by cases owns) rfl
    | readValue pos => exact .shift (Function.update_self none _ x.threads) rfl rfl (fun _ => rfl) rfl
    | storeSequence pos out => exact .release rfl (Function.update_self none _ x.threads) rfl

/-- The consumer's access receives an element exactly if its call returns one. -/
theorem Receives.pop (receives : Receives x received) (sound : Sound x) (several : 2 ≤ C.size)
    {r : Running T} (inside : x.threads none = some r)
    (moved : x.next (.run none spurious) = some x') :
    Receives x' (received ++ ((popReply x.ring spurious r).getD none).toList) := by
  have step := booked moved
  have before (n : ℕ) (a : T) (found : received[n]? = some a) : x'.Published n a :=
    published_step sound.accounted step (receives.taken n a found)
  have count := receives.count
  have mine := receives.mine r inside
  rw [inside] at count
  have did := popMoved inside (receives.consumer r inside) moved
  generalize popReply x.ring spurious r = reply at did ⊢
  cases did with
  | shift onward request claimed seen dequeued =>
    simp only [Option.getD_none, Option.toList_none, List.append_nil]
    refine ⟨?_, before, ?_, ?_⟩
    · rw [onward]
      rintro _ ⟨⟩
      exact request
    · rw [onward, dequeued, ← count, inHand, inHand, claimed]
    · rw [onward]
      rintro _ ⟨⟩ owns
      rw [claimed] at owns
      rw [seen owns]
      exact mine owns
  | claim onward request unclaimed claimed seen dequeued =>
    simp only [Option.getD_none, Option.toList_none, List.append_nil]
    simp only [inHand, unclaimed, Bool.false_eq_true, if_false] at count
    refine ⟨?_, before, ?_, ?_⟩
    · rw [onward]
      rintro _ ⟨⟩
      exact request
    · rw [onward, dequeued, inHand, claimed, if_pos rfl]
      omega
    · rw [onward]
      rintro _ ⟨⟩ -
      omega
  | refuse left unclaimed dequeued =>
    simp only [Option.getD_some, Option.toList_none, List.append_nil]
    simp only [inHand, unclaimed, Bool.false_eq_true, if_false] at count
    refine ⟨?_, before, ?_, ?_⟩
    · rw [left]
      nofun
    · rw [left, dequeued]
      exact count
    · rw [left]
      nofun
  | @release pos out frame left dequeued =>
    simp only [Option.getD_some, Option.toList_some]
    have claimed : r.frame.claimed = true := by rw [frame]; rfl
    have seen : r.seen = received.length := mine claimed
    simp only [inHand, claimed, if_true] at count
    have published : x'.Published received.length out := by
      have framed := sound.coherent.frames none r inside
      simp only [FrameSound, frame] at framed
      have element := sound.coherent.reader_value several framed.2.1
      have same := sound.accounted.pushed_value framed.2.2
        (element.imp fun _ entry => ⟨_, entry⟩)
      rw [← same, seen] at element
      exact published_step sound.accounted step element
    refine ⟨?_, ?_, ?_, ?_⟩
    · rw [left]
      nofun
    · intro n a found
      rcases Nat.lt_trichotomy n received.length with low | rfl | high
      · rw [List.getElem?_append_left low] at found
        exact before n a found
      · rw [List.getElem?_concat_length] at found
        cases found
        exact published
      · rw [List.getElem?_eq_none (by rw [List.length_append, List.length_singleton]; omega)] at found
        cases found
    · rw [left, dequeued, List.length_append, List.length_singleton]
      exact count
    · rw [left]
      nofun

/-! ## Both sides over a run -/

/-- The ring is sound, and both sides are in order. -/
structure Ordered (s : Streams Producer T C) : Prop where
  sound : Sound s.system
  sends : Sends s.system s.sent
  receives : Receives s.system s.received

theorem send_ordered (ordered : Ordered s) (sound' : Sound s'.system) {value : T}
    (moved : s.send p value = some s') : Ordered s' := by
  obtain ⟨x', called, rfl⟩ := Option.map_eq_some_iff.mp moved
  have step := booked called
  obtain ⟨-, rfl⟩ := call_begin called
  have consumer : (s.system.begin (some p) (.push value)).threads none = s.system.threads none := by
    simp only [System.begin]
    rw [Function.update_of_ne (Option.some_ne_none p).symm]
  refine ⟨sound', ordered.sends.quiet ordered.sound.accounted step ?_ fun _ _ => published_begin,
    ordered.receives.quiet ordered.sound.accounted step consumer rfl⟩
  intro q r inside
  simp only [System.begin] at inside
  by_cases own : some q = some p
  · rw [own, Function.update_self] at inside
    cases inside
    exact ⟨value, rfl⟩
  · rw [Function.update_of_ne own] at inside
    exact ordered.sends.producers q r inside

theorem sending_cases (ring : MpmcRing T C) (spurious : Bool) (r : Running T) :
    (∃ value pos, r.frame = .push value (.storeSequence pos) ∧
      sending ring spurious r = [(r.seen, value)]) ∨
    (∀ value pos, r.frame ≠ .push value (.storeSequence pos)) ∧ sending ring spurious r = [] := by
  obtain ⟨call, frame, seen⟩ := r
  cases frame with
  | pop point => exact .inr ⟨fun _ _ other => (by cases other), rfl⟩
  | push value point =>
    cases point with
    | storeSequence pos => exact .inl ⟨value, pos, rfl, rfl⟩
    | loadPos | writeValue pos => exact .inr ⟨fun _ _ other => (by cases other), rfl⟩
    | loadSequence pos =>
      refine .inr ⟨fun _ _ other => (by cases other), ?_⟩
      simp only [sending, MpmcRing.pushStep]
      split
      · rename_i answered
        split at answered
        · cases answered
        · split at answered <;> cases answered
      · rfl
    | exchange pos =>
      refine .inr ⟨fun _ _ other => (by cases other), ?_⟩
      simp only [sending, MpmcRing.pushStep]
      split
      · rename_i answered
        split at answered <;> cases answered
      · rfl

theorem push_ordered (ordered : Ordered s) (sound' : Sound s'.system)
    (moved : s.push p spurious = some s') : Ordered s' := by
  obtain ⟨r, inside, moved⟩ := Option.bind_eq_some_iff.mp moved
  obtain ⟨x', accessed, rfl⟩ := Option.map_eq_some_iff.mp moved
  have step := booked accessed
  have accounted := ordered.sound.accounted
  obtain ⟨value, request⟩ := ordered.sends.producers p r inside
  refine ⟨sound', ?_, ordered.receives.quiet accounted step
    (run_others accessed (Option.some_ne_none p).symm)
    (run_push_dequeued inside request accessed)⟩
  rcases sending_cases s.system.ring spurious r with ⟨value', pos, frame, sends⟩ | ⟨not, sends⟩
  · rw [sends]
    exact ordered.sends.publish ordered.sound inside frame accessed
  · rw [sends, List.append_nil, Function.update_eq_self]
    refine ordered.sends.quiet accounted step ?_ ?_
    · intro q r' inside'
      obtain ⟨r₀, after, inside₀, threads, request'⟩ := run_threads accessed
      rw [inside] at inside₀
      cases inside₀
      by_cases own : some q = some p
      · rw [threads, own, Function.update_self] at inside'
        exact ⟨value, (request' r' inside').trans request⟩
      · rw [threads, Function.update_of_ne own] at inside'
        exact ordered.sends.producers q r' inside'
    · intro ticket out now
      refine (published_run accounted accessed now).resolve_right ?_
      rintro ⟨r', pos, inside', frame, -⟩
      rw [inside] at inside'
      cases inside'
      exact not _ _ frame

theorem receive_ordered (ordered : Ordered s) (sound' : Sound s'.system)
    (moved : s.receive = some s') : Ordered s' := by
  obtain ⟨x', called, rfl⟩ := Option.map_eq_some_iff.mp moved
  have step := booked called
  have accounted := ordered.sound.accounted
  obtain ⟨idle, rfl⟩ := call_begin called
  have count := ordered.receives.count
  rw [idle] at count
  have entered : (s.system.begin none .pop).threads none =
      some ⟨s.system.issued, .pop .loadPos, 0⟩ := by
    simp only [System.begin]
    rw [Function.update_self, System.entry]
  refine ⟨sound', ordered.sends.quiet accounted step ?_ fun _ _ => published_begin, ?_⟩
  · intro q r inside
    simp only [System.begin] at inside
    rw [Function.update_of_ne (Option.some_ne_none q)] at inside
    exact ordered.sends.producers q r inside
  · refine ⟨?_, fun n a found => published_step accounted step (ordered.receives.taken n a found),
      ?_, ?_⟩
    · simp only [entered]
      rintro _ ⟨⟩
      rfl
    · simp only [entered]
      exact count
    · simp only [entered]
      rintro _ ⟨⟩ owns
      cases owns

theorem pop_ordered (ordered : Ordered s) (several : 2 ≤ C.size) (sound' : Sound s'.system)
    (moved : s.pop spurious = some s') : Ordered s' := by
  obtain ⟨r, inside, moved⟩ := Option.bind_eq_some_iff.mp moved
  obtain ⟨x', accessed, rfl⟩ := Option.map_eq_some_iff.mp moved
  have accounted := ordered.sound.accounted
  refine ⟨sound', ordered.sends.quiet accounted (booked accessed) ?_ ?_,
    ordered.receives.pop ordered.sound several inside accessed⟩
  · intro q r' inside'
    rw [run_others accessed (Option.some_ne_none q)] at inside'
    exact ordered.sends.producers q r' inside'
  · intro ticket out now
    refine (published_run accounted accessed now).resolve_right ?_
    rintro ⟨r', pos, inside', frame, -⟩
    have request := ordered.receives.consumer r' inside'
    rw [frame] at request
    cases request

/-- A step of the streams is a step of the ring. -/
theorem system_moved {command : Command Producer T} (moved : s.next command = some s') :
    ∃ action, s.system.next action = some s'.system := by
  cases command with
  | send p value =>
    obtain ⟨x', called, rfl⟩ := Option.map_eq_some_iff.mp moved
    exact ⟨_, called⟩
  | push p spurious =>
    obtain ⟨r, -, moved⟩ := Option.bind_eq_some_iff.mp moved
    obtain ⟨x', accessed, rfl⟩ := Option.map_eq_some_iff.mp moved
    exact ⟨_, accessed⟩
  | receive =>
    obtain ⟨x', called, rfl⟩ := Option.map_eq_some_iff.mp moved
    exact ⟨_, called⟩
  | pop spurious =>
    obtain ⟨r, -, moved⟩ := Option.bind_eq_some_iff.mp moved
    obtain ⟨x', accessed, rfl⟩ := Option.map_eq_some_iff.mp moved
    exact ⟨_, accessed⟩

theorem step_ordered (several : 2 ≤ C.size) {command : Command Producer T} (ordered : Ordered s)
    (moved : s.next command = some s') (within : small s command s') : Ordered s' := by
  obtain ⟨action, stepped⟩ := system_moved moved
  have sound' := step_sound several ordered.sound stepped within
  cases command with
  | send p value => exact send_ordered ordered sound' moved
  | push p spurious => exact push_ordered ordered sound' moved
  | receive => exact receive_ordered ordered sound' moved
  | pop spurious => exact pop_ordered ordered several sound' moved

theorem start_ordered [Inhabited T] (several : 2 ≤ C.size) :
    Ordered (machine Producer T C).start where
  sound := run_sound several .refl
  sends := ⟨nofun, fun _ => .nil, fun _ _ => ⟨nofun, nofun⟩, nofun, nofun⟩
  receives := ⟨nofun, nofun, rfl, nofun⟩

/-- What is received is an interleaving of beginnings of what was sent, and of all
of it once the consumer has caught up. -/
theorem Ordered.labelled (ordered : Ordered s) :
    ∃ labelled : List (Producer × T), labelled.map Prod.snd = s.received ∧
      (∀ p, ofLabel labelled p <+: (s.sent p).map Prod.snd) ∧
      (s.received.length = s.system.ring.enqueuePos.toNat →
        ∀ p, ofLabel labelled p = (s.sent p).map Prod.snd) := by
  have sends := ordered.sends
  obtain ⟨labelled, elements, streamed⟩ := labelled_of_numbered sends.increasing sends.apart
    s.received fun n a found => (sends.published n a).mp (ordered.receives.taken n a found)
  refine ⟨labelled, elements, fun p => ?_, fun all p => ?_⟩
  · rw [streamed]
    exact (below_first (sends.increasing p) _).map _
  · rw [streamed, all, ordered.sound.enqueuePos, List.filter_eq_self.mpr]
    intro a member
    exact decide_eq_true (ordered.sound.accounted.published_lt
      ((sends.published a.1 a.2).mpr ⟨p, member⟩))

/-- **Each producer's elements arrive in the order in which it sent them, without a
gap.** However the accesses of any number of producers and one consumer
interleave, the elements the consumer has popped are an interleaving of
beginnings of the producers' successful pushes; each of these is received whole
once the consumer has caught up with the cursor. -/
theorem producers_in_order [Inhabited T] (several : 2 ≤ C.size)
    (reached : (machine Producer T C).Reachable small s) :
    ∃ labelled : List (Producer × T), labelled.map Prod.snd = s.received ∧
      (∀ p, ofLabel labelled p <+: (s.sent p).map Prod.snd) ∧
      (s.received.length = s.system.ring.enqueuePos.toNat →
        ∀ p, ofLabel labelled p = (s.sent p).map Prod.snd) :=
  (reached.invariant (start_ordered several) (step_ordered several)).labelled

/-- The first producer has claimed the first ticket when the second sends twice and
is refused; the consumer waits for the first. -/
def waiting : List (Command Bool ℕ) :=
  [.send false 1, .push false false, .push false false, .push false false, .send true 2,
    .push true false, .push true false, .push true false, .push true false, .push true false,
    .receive, .pop false, .pop false, .send true 3, .push true false, .push true false,
    .push false false, .push false false,
    .receive, .pop false, .pop false, .pop false, .pop false, .pop false]

theorem producers_in_order_waiting :
    let two := machine Bool ℕ ⟨2, by decide, by decide⟩
    ∃ s, two.execWithin small two.start waiting = some s ∧ s.received = [1] ∧
      (s.sent false).map Prod.snd = [1] ∧ (s.sent true).map Prod.snd = [2] ∧
      ∃ labelled : List (Bool × ℕ), labelled.map Prod.snd = [1] ∧
        ∀ p, ofLabel labelled p <+: (s.sent p).map Prod.snd := by
  intro two
  have ends : (two.execWithin small two.start waiting).map (fun s =>
      (s.received, (s.sent false).map Prod.snd, (s.sent true).map Prod.snd)) =
        some ([1], [1], [2]) := by
    decide
  obtain ⟨s, ran, shape⟩ := Option.map_eq_some_iff.mp ends
  simp only [Prod.mk.injEq] at shape
  obtain ⟨received, first, second⟩ := shape
  obtain ⟨labelled, elements, streamed, -⟩ := producers_in_order (by decide)
    (Machine.execWithin_reaches waiting ran)
  exact ⟨s, ran, received, first, second, labelled, elements.trans received, streamed⟩

end Ringio.MpmcStreams
