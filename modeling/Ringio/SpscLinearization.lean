import Mathlib.Data.Fintype.Basic
import Ringio.Machine
import Ringio.SpscRing

/-! One producer thread and one consumer thread on an `SpscRing`, one shared
access at a time. An element is a family of words, and a slot copy moves its
words one by one in whatever order, so a torn read is a run like any other.
The cursors are the machine words themselves and runs have no length bound. -/
namespace Ringio.SpscLinearization
open BoundedFifo

/-- The producer between calls or inside `try_push`, with the locals it has
loaded. `copyIn` has written the words in `copied` so far. -/
inductive Producer (ι W : Type) where
  | idle
  | loadTail (value : ι → W)
  | loadHead (value : ι → W) (tail : UInt64)
  | copyIn (value : ι → W) (tail : UInt64) (copied : Finset ι)

/-- The consumer between calls or inside `try_pop`. `out` is the caller's
variable, which starts with whatever the caller left there. -/
inductive Consumer (ι W : Type) where
  | idle
  | loadHead (out : ι → W)
  | loadTail (out : ι → W) (head : UInt64)
  | copyOut (out : ι → W) (head : UInt64) (copied : Finset ι)

/-- The shared ring and both threads. `log` lists the calls that have returned,
in the order of their returns; no step reads it. -/
structure System (ι W : Type) (C : Capacity) where
  ring : SpscRing (ι → W) C
  producer : Producer ι W
  consumer : Consumer ι W
  log : List (Request (ι → W) × Reply (ι → W))

/-- Whose turn it is, and which word a copy moves. -/
inductive Command (ι W : Type) where
  | callPush (value : ι → W)
  | callPop (out : ι → W)
  | produce
  | produceWord (word : ι)
  | consume
  | consumeWord (word : ι)

variable {ι W : Type} [Fintype ι] [DecidableEq ι] {C : Capacity}

namespace System

/-- `try_push` returns. -/
def pushReturns (s : System ι W C) (value : ι → W) (accepted : Bool) : System ι W C :=
  { s with producer := .idle, log := s.log ++ [(.push value, .pushed accepted)] }

/-- `try_pop` returns. -/
def popReturns (s : System ι W C) (out : Option (ι → W)) : System ι W C :=
  { s with consumer := .idle, log := s.log ++ [(.pop, .popped out)] }

/-- The producer's next access to a cursor. The tail store waits until every
word of the slot is written. -/
def produce (s : System ι W C) : Option (System ι W C) :=
  match s.producer with
  | .idle => none
  | .loadTail value => some { s with producer := .loadHead value s.ring.tail }
  | .loadHead value tail =>
    if SpscRing.full C tail s.ring.head then some (s.pushReturns value false)
    else some { s with producer := .copyIn value tail ∅ }
  | .copyIn value tail copied =>
    if copied = Finset.univ then
      some ({ s with ring := s.ring.storeTail (tail + 1) }.pushReturns value true)
    else none

/-- The producer copies one more word into its slot. -/
def produceWord (s : System ι W C) (word : ι) : Option (System ι W C) :=
  match s.producer with
  | .copyIn value tail copied =>
    if word ∈ copied then none
    else
      let slot := Function.update (s.ring.buffer (C.index tail)) word (value word)
      some { s with
        ring := s.ring.writeSlot tail slot
        producer := .copyIn value tail (insert word copied) }
  | _ => none

/-- The consumer's next access to a cursor. The head store waits until every
word of the slot is read. -/
def consume (s : System ι W C) : Option (System ι W C) :=
  match s.consumer with
  | .idle => none
  | .loadHead out => some { s with consumer := .loadTail out s.ring.head }
  | .loadTail out head =>
    if head = s.ring.tail then some (s.popReturns none)
    else some { s with consumer := .copyOut out head ∅ }
  | .copyOut out head copied =>
    if copied = Finset.univ then
      some ({ s with ring := s.ring.storeHead (head + 1) }.popReturns (some out))
    else none

/-- The consumer copies one more word out of its slot. -/
def consumeWord (s : System ι W C) (word : ι) : Option (System ι W C) :=
  match s.consumer with
  | .copyOut out head copied =>
    if word ∈ copied then none
    else some { s with
      consumer := .copyOut (Function.update out word (s.ring.buffer (C.index head) word)) head
        (insert word copied) }
  | _ => none

def next (s : System ι W C) : Command ι W → Option (System ι W C)
  | .callPush value =>
    match s.producer with
    | .idle => some { s with producer := .loadTail value }
    | _ => none
  | .callPop out =>
    match s.consumer with
    | .idle => some { s with consumer := .loadHead out }
    | _ => none
  | .produce => s.produce
  | .produceWord word => s.produceWord word
  | .consume => s.consume
  | .consumeWord word => s.consumeWord word

end System

/-- A fresh ring and two idle threads. -/
def machine (ι W : Type) [Fintype ι] [DecidableEq ι] [Inhabited W] (C : Capacity) :
    Machine (System ι W C) (Command ι W) where
  start := ⟨SpscRing.new _ C, .idle, .idle, []⟩
  next := System.next

/-- What the producer's locals guarantee. Its copy of `tail_` is exact because
nobody else stores it, and room it has seen stays: the head only advances. -/
def ProducerSound (ring : SpscRing (ι → W) C) : Producer ι W → Prop
  | .idle | .loadTail _ => True
  | .loadHead _ tail => tail = ring.tail
  | .copyIn value tail copied => tail = ring.tail ∧ ring.count < C.size ∧
    ∀ word ∈ copied, ring.buffer (C.index tail) word = value word

/-- What the consumer's locals guarantee. -/
def ConsumerSound (ring : SpscRing (ι → W) C) : Consumer ι W → Prop
  | .idle | .loadHead _ => True
  | .loadTail _ head => head = ring.head
  | .copyOut out head copied => head = ring.head ∧ 0 < ring.count ∧
    ∀ word ∈ copied, out word = ring.buffer (C.index head) word

/-- The slots between the cursors are at every moment the contents of the
bounded queue that answered the logged calls. -/
structure Sound (s : System ι W C) : Prop where
  valid : s.ring.Valid
  legal : Legal C.size s.log s.ring.held
  producer : ProducerSound s.ring s.producer
  consumer : ConsumerSound s.ring s.consumer

omit [Fintype ι] [DecidableEq ι] in
/-- The slot being written is not the slot being read. -/
theorem slots_disjoint {ring : SpscRing (ι → W) C} (nonempty : 0 < ring.count)
    (room : ring.count < C.size) : C.index ring.head ≠ C.index ring.tail := by
  have apart := C.index_add_ne ring.head nonempty (by omega)
  rwa [← ring.tail_eq, show ring.head + .ofNat 0 = ring.head from UInt64.add_zero _] at apart

theorem produce_sound {s s' : System ι W C} (sound : Sound s) (moved : s.produce = some s') :
    Sound s' := by
  obtain ⟨ring, producer, consumer, log⟩ := s
  obtain ⟨valid, legal, mine, theirs⟩ := sound
  dsimp only at valid legal mine theirs
  cases producer with
  | idle => cases moved
  | loadTail value =>
    cases moved
    exact ⟨valid, legal, rfl, theirs⟩
  | loadHead value tail =>
    have own : tail = ring.tail := mine
    subst own
    simp only [System.produce] at moved
    split at moved
    · rename_i full
      cases moved
      have noRoom := (SpscRing.full_iff _ _).mp full
      refine ⟨valid, legal.concat ?_, trivial, theirs⟩
      exact if_neg (by rw [SpscRing.length_held]; exact Nat.not_lt.mpr noRoom)
    · rename_i notFull
      cases moved
      refine ⟨valid, legal, ⟨rfl, ?_, by simp⟩, theirs⟩
      rw [SpscRing.full_iff] at notFull
      exact Nat.not_le.mp notFull
  | copyIn value tail copied =>
    obtain ⟨own, room, words⟩ := mine
    subst own
    simp only [System.produce] at moved
    split at moved
    · rename_i complete
      cases moved
      have grown := SpscRing.count_storeTail room
      have slot : ring.buffer (C.index ring.tail) = value :=
        funext fun word => words word (complete ▸ Finset.mem_univ word)
      have heldGrown := SpscRing.held_storeTail room
      rw [slot] at heldGrown
      refine ⟨grown.trans_le room, legal.concat ?_, trivial, ?_⟩
      · rw [answer, if_pos (by rwa [SpscRing.length_held])]
        exact congrArg _ heldGrown.symm
      · cases consumer with
        | idle | loadHead => trivial
        | loadTail out head => exact theirs
        | copyOut out head done => exact ⟨theirs.1, grown ▸ Nat.succ_pos _, theirs.2.2⟩
    · cases moved

omit [Fintype ι] in
theorem produceWord_sound {s s' : System ι W C} {word : ι} (sound : Sound s)
    (moved : s.produceWord word = some s') : Sound s' := by
  obtain ⟨ring, producer, consumer, log⟩ := s
  obtain ⟨valid, legal, mine, theirs⟩ := sound
  dsimp only at valid legal mine theirs
  cases producer with
  | idle | loadTail | loadHead => cases moved
  | copyIn value tail copied =>
    obtain ⟨own, room, words⟩ := mine
    subst own
    simp only [System.produceWord] at moved
    split at moved
    · cases moved
    · cases moved
      refine ⟨valid, ?_, ⟨rfl, room, ?_⟩, ?_⟩
      · rwa [SpscRing.held_writeSlot room]
      · intro probe member
        simp only [SpscRing.writeSlot, Function.update_self]
        rcases Finset.mem_insert.mp member with rfl | before
        · exact Function.update_self ..
        · by_cases same : probe = word
          · subst same
            exact Function.update_self ..
          · rw [Function.update_of_ne same]
            exact words probe before
      · cases consumer with
        | idle | loadHead => trivial
        | loadTail out head => exact theirs
        | copyOut out head done =>
          obtain ⟨at_head, nonempty, read⟩ := theirs
          refine ⟨at_head, nonempty, fun probe member => (read probe member).trans ?_⟩
          rw [at_head]
          simp only [SpscRing.writeSlot]
          rw [Function.update_of_ne (slots_disjoint nonempty room)]

theorem consume_sound {s s' : System ι W C} (sound : Sound s) (moved : s.consume = some s') :
    Sound s' := by
  obtain ⟨ring, producer, consumer, log⟩ := s
  obtain ⟨valid, legal, theirs, mine⟩ := sound
  dsimp only at valid legal mine theirs
  cases consumer with
  | idle => cases moved
  | loadHead out =>
    cases moved
    exact ⟨valid, legal, theirs, rfl⟩
  | loadTail out head =>
    have own : head = ring.head := mine
    subst own
    simp only [System.consume] at moved
    split at moved
    · rename_i empty
      cases moved
      have none := ring.head_eq_tail.mp empty
      refine ⟨valid, legal.concat ?_, theirs, trivial⟩
      rw [← SpscRing.length_held, List.length_eq_zero_iff] at none
      simp only [System.popReturns, none, answer]
    · rename_i nonempty
      cases moved
      refine ⟨valid, legal, theirs, rfl, ?_, by simp⟩
      exact Nat.pos_of_ne_zero fun none => nonempty (ring.head_eq_tail.mpr none)
  | copyOut out head copied =>
    obtain ⟨own, nonempty, words⟩ := mine
    subst own
    simp only [System.consume] at moved
    split at moved
    · rename_i complete
      cases moved
      have slot : out = ring.buffer (C.index ring.head) :=
        funext fun word => words word (complete ▸ Finset.mem_univ word)
      have shrunk := SpscRing.held_storeHead nonempty
      have shorter := congrArg List.length shrunk
      rw [← slot] at shrunk
      simp only [List.length_cons, SpscRing.length_held] at shorter
      unfold SpscRing.Valid at valid
      refine ⟨?_, legal.concat ?_, ?_, trivial⟩
      · show (ring.storeHead (ring.head + 1)).count ≤ C.size
        omega
      · rw [shrunk]
        rfl
      · cases producer with
        | idle | loadTail => trivial
        | loadHead value tail => exact theirs
        | copyIn value tail done =>
          refine ⟨theirs.1, ?_, theirs.2.2⟩
          show (ring.storeHead (ring.head + 1)).count < C.size
          omega
    · cases moved

omit [Fintype ι] in
theorem consumeWord_sound {s s' : System ι W C} {word : ι} (sound : Sound s)
    (moved : s.consumeWord word = some s') : Sound s' := by
  obtain ⟨ring, producer, consumer, log⟩ := s
  obtain ⟨valid, legal, theirs, mine⟩ := sound
  dsimp only at valid legal mine theirs
  cases consumer with
  | idle | loadHead | loadTail => cases moved
  | copyOut out head copied =>
    obtain ⟨own, nonempty, words⟩ := mine
    simp only [System.consumeWord] at moved
    split at moved
    · cases moved
    · cases moved
      refine ⟨valid, legal, theirs, own, nonempty, ?_⟩
      intro probe member
      by_cases same : probe = word
      · subst same
        exact Function.update_self ..
      · rw [Function.update_of_ne same]
        exact words probe (Finset.mem_of_mem_insert_of_ne member same)

/-- Every step of either thread keeps the invariant. -/
theorem step_sound {s s' : System ι W C} {command : Command ι W} (sound : Sound s)
    (moved : s.next command = some s') : Sound s' := by
  cases command with
  | callPush value =>
    simp only [System.next] at moved
    split at moved
    · cases moved
      exact ⟨sound.valid, sound.legal, trivial, sound.consumer⟩
    · cases moved
  | callPop out =>
    simp only [System.next] at moved
    split at moved
    · cases moved
      exact ⟨sound.valid, sound.legal, sound.producer, trivial⟩
    · cases moved
  | produce => exact produce_sound sound moved
  | produceWord word => exact produceWord_sound sound moved
  | consume => exact consume_sound sound moved
  | consumeWord word => exact consumeWord_sound sound moved

variable [Inhabited W]

/-- Every run of the two threads, of any length, stays sound. -/
theorem run_sound {s : System ι W C}
    (reached : (machine ι W C).Reachable Machine.anyStep s) : Sound s := by
  refine reached.invariant ?_ fun sound moved _ => step_sound sound moved
  refine ⟨SpscRing.new_valid, ?_, trivial, trivial⟩
  show Legal C.size [] (SpscRing.new (ι → W) C).held
  rw [SpscRing.new_held]
  exact legal_nil

omit [Inhabited W] in
/-- `try_push` says full only at its load of `head_`, of a ring that is full. -/
theorem refused_push_full {s s' : System ι W C} {command : Command ι W} {value : ι → W}
    (sound : Sound s) (moved : s.next command = some s')
    (refused : s'.log = s.log ++ [(.push value, .pushed false)]) :
    ∃ tail, command = .produce ∧ s.producer = .loadHead value tail ∧
      s.ring.held.length = C.size := by
  obtain ⟨ring, producer, consumer, log⟩ := s
  have mine := sound.producer
  have valid : ring.count ≤ C.size := sound.valid
  cases command with
  | produce =>
    cases producer with
    | idle => cases moved
    | loadTail held => cases moved; simp at refused
    | loadHead held tail =>
      have own : tail = ring.tail := mine
      simp only [System.next, System.produce] at moved
      split at moved
      · rename_i full
        cases moved
        simp only [System.pushReturns, List.append_cancel_left_eq, List.cons.injEq,
          Prod.mk.injEq, Request.push.injEq, and_true] at refused
        subst refused own
        have noRoom : C.size ≤ ring.count := (SpscRing.full_iff _ _).mp full
        exact ⟨_, rfl, rfl, by rw [SpscRing.length_held]; exact le_antisymm valid noRoom⟩
      · cases moved; simp at refused
    | copyIn held tail copied =>
      simp only [System.next, System.produce] at moved
      split at moved <;> cases moved
      simp [System.pushReturns] at refused
  | consume =>
    simp only [System.next, System.consume] at moved
    split at moved
    · cases moved
    · cases moved; simp at refused
    · split at moved <;> cases moved <;> simp [System.popReturns] at refused
    · split at moved <;> cases moved
      simp [System.popReturns] at refused
  | callPush | callPop | produceWord | consumeWord =>
    simp only [System.next, System.produceWord, System.consumeWord] at moved
    split at moved <;> (try split at moved) <;> cases moved
    all_goals simp at refused

omit [Inhabited W] in
/-- `try_pop` says empty only at its load of `tail_`, of a ring that is empty. -/
theorem refused_pop_empty {s s' : System ι W C} {command : Command ι W}
    (sound : Sound s) (moved : s.next command = some s')
    (refused : s'.log = s.log ++ [(.pop, .popped none)]) :
    ∃ out head, command = .consume ∧ s.consumer = .loadTail out head ∧ s.ring.held = [] := by
  obtain ⟨ring, producer, consumer, log⟩ := s
  have mine := sound.consumer
  cases command with
  | consume =>
    cases consumer with
    | idle => cases moved
    | loadHead out => cases moved; simp at refused
    | loadTail out head =>
      have own : head = ring.head := mine
      simp only [System.next, System.consume] at moved
      split at moved
      · rename_i empty
        subst own
        refine ⟨_, _, rfl, rfl, ?_⟩
        rw [← List.length_eq_zero_iff, SpscRing.length_held]
        exact ring.head_eq_tail.mp empty
      · cases moved; simp at refused
    | copyOut out head copied =>
      simp only [System.next, System.consume] at moved
      split at moved <;> cases moved
      simp [System.popReturns] at refused
  | produce =>
    simp only [System.next, System.produce] at moved
    split at moved
    · cases moved
    · cases moved; simp at refused
    · split at moved <;> cases moved <;> simp [System.pushReturns] at refused
    · split at moved <;> cases moved
      simp [System.pushReturns] at refused
  | callPush | callPop | produceWord | consumeWord =>
    simp only [System.next, System.produceWord, System.consumeWord] at moved
    split at moved <;> (try split at moved) <;> cases moved
    all_goals simp at refused

/-- **The ring is a bounded queue.** After any run of the two threads, through
any number of cursor wraps, the calls that have returned form a history of the
bounded queue in the order of their returns, whose contents are the slots
between the cursors. So pops return a prefix of what pushes accepted, at most
`Capacity` elements lie between, no copy out meets a copy in on one slot, and
each refusal was true when the deciding cursor was loaded. -/
theorem linearizable_fifo {s : System ι W C}
    (reached : (machine ι W C).Reachable Machine.anyStep s) :
    Legal C.size s.log s.ring.held ∧
    delivered s.log <+: accepted s.log ∧
    (accepted s.log).length ≤ (delivered s.log).length + C.size ∧
    (∀ value tail written out head read, s.producer = .copyIn value tail written →
      s.consumer = .copyOut out head read → C.index tail ≠ C.index head) ∧
    (∀ command s' value, s.next command = some s' →
      s'.log = s.log ++ [(.push value, .pushed false)] →
      ∃ tail, command = .produce ∧ s.producer = .loadHead value tail ∧
        s.ring.held.length = C.size) ∧
    (∀ command s', s.next command = some s' → s'.log = s.log ++ [(.pop, .popped none)] →
      ∃ out head, command = .consume ∧ s.consumer = .loadTail out head ∧ s.ring.held = []) := by
  have sound := run_sound reached
  have accounts := sound.legal.accounts
  refine ⟨sound.legal, ⟨_, accounts.symm⟩, ?_, ?_, ?_, ?_⟩
  · have fits := sound.legal.fits
    rw [accounts, List.length_append]
    omega
  · intro value tail written out head read writing reading
    have mine := sound.producer
    have theirs := sound.consumer
    rw [writing] at mine
    rw [reading] at theirs
    rw [mine.1, theirs.1]
    exact (slots_disjoint theirs.2.1 mine.2.1).symm
  · exact fun _ _ _ moved refused => refused_push_full sound moved refused
  · exact fun _ _ moved refused => refused_pop_empty sound moved refused

/-- Two pushes and a pop that overlap on a ring of one slot. -/
def crossing : List (Command Bool Bool) :=
  [.callPush id, .callPop not, .produce, .produce, .produceWord true, .consume,
    .produceWord false, .produce, .callPush not, .produce, .produce, .consume,
    .consumeWord false, .consumeWord true, .consume]

/-- There the second push is refused and the first element, of two words, comes
out whole. -/
theorem linearizable_fifo_crossing :
    let one := machine Bool Bool ⟨1, by decide, by decide⟩
    ∃ s, one.exec one.start crossing = some s ∧
      (s.log.length, (delivered s.log).map fun out => (out false, out true)) =
        (3, [(false, true)]) ∧
      Legal 1 s.log s.ring.held ∧ delivered s.log <+: accepted s.log := by
  intro one
  have ends : (one.exec one.start crossing).map (fun s => (s.log.length,
      (delivered s.log).map fun out => (out false, out true))) = some (3, [(false, true)]) := by
    decide
  obtain ⟨s, ran, answers⟩ := Option.map_eq_some_iff.mp ends
  have history := linearizable_fifo (Machine.exec_reaches crossing ran)
  exact ⟨s, ran, answers, history.1, history.2.1⟩

end Ringio.SpscLinearization
