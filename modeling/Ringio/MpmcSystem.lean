import Ringio.Machine
import Ringio.MpmcRing

/-! Any number of threads calling one `MpmcRing`, one shared access at a time.
The shared ring and the threads are the program. Beside them the system keeps
what an observer would write down: the calls made and how they ended, and the
cursors and sequences as unbounded numbers. No step of the program reads that
record. -/
namespace Ringio.MpmcSystem
open BoundedFifo

/-- A call in progress: its argument and its program point. -/
inductive Frame (T : Type) where
  | push (value : T) (point : PushPoint)
  | pop (point : PopPoint T)

/-- The call as its caller wrote it. -/
def Frame.request {T : Type} : Frame T → Request T
  | .push value _ => .push value
  | .pop _ => .pop

/-- Between the successful compare-exchange and the sequence store. -/
def Frame.claimed {T : Type} : Frame T → Bool
  | .push _ (.writeValue _) | .push _ (.storeSequence _) => true
  | .pop (.readValue _) | .pop (.storeSequence _ _) => true
  | _ => false

/-- A thread inside a call. `seen` is the unbounded number of the cursor value
the call read last. -/
structure Running (T : Type) where
  call : ℕ
  frame : Frame T
  seen : ℕ

/-- The record of one call: what it was, the ticket it claimed, how it ended. -/
structure Call (T : Type) where
  request : Request T
  ticket : Option ℕ
  reply : Option (Reply T)
  deriving DecidableEq

/-- The ring, the threads, and the record. `enqueued`, `dequeued` and `turn` are
the cursors and the slot sequences without wraparound; calls are numbered in
the order in which they start. -/
structure System (Thread T : Type) (C : Capacity) where
  ring : MpmcRing T C
  threads : Thread → Option (Running T)
  enqueued : ℕ
  dequeued : ℕ
  turn : Fin C.size → ℕ
  issued : ℕ
  calls : ℕ → Option (Call T)

/-- A thread starts a call, or makes the next access of the one it is in. A weak
compare-exchange fails spuriously when the schedule says so. -/
inductive Command (Thread T : Type) where
  | call (thread : Thread) (request : Request T)
  | run (thread : Thread) (spurious : Bool)

/-- The thread that moves. -/
def Command.thread {Thread T : Type} : Command Thread T → Thread
  | .call t _ | .run t _ => t

variable {Thread T : Type} [DecidableEq Thread] {C : Capacity}

namespace System

/-- The first program point of a call. -/
def entry : Request T → Frame T
  | .push value => .push value .loadPos
  | .pop => .pop .loadPos

/-- A thread starts a call. -/
def begin (s : System Thread T C) (t : Thread) (request : Request T) : System Thread T C :=
  { s with
    threads := Function.update s.threads t (some ⟨s.issued, entry request, 0⟩)
    issued := s.issued + 1
    calls := Function.update s.calls s.issued (some ⟨request, none, none⟩) }

/-- A thread moves on inside its call. -/
def shift (s : System Thread T C) (t : Thread) (r : Running T) : System Thread T C :=
  { s with threads := Function.update s.threads t (some r) }

/-- The call of a thread is recorded as the owner of a ticket. -/
def own (s : System Thread T C) (call ticket : ℕ) : System Thread T C :=
  { s with
    calls := Function.update s.calls call
      ((s.calls call).map fun c => { c with ticket := some ticket }) }

/-- The call of a thread returns. -/
def finish (s : System Thread T C) (t : Thread) (call : ℕ) (reply : Reply T) :
    System Thread T C :=
  { s with
    threads := Function.update s.threads t none
    calls := Function.update s.calls call
      ((s.calls call).map fun c => { c with reply := some reply }) }

/-- The call of a thread claims the push ticket at the cursor. -/
def claimPush (s : System Thread T C) (t : Thread) (r : Running T) (value : T)
    (ring : MpmcRing T C) (pos : UInt64) : System Thread T C :=
  ({ s with ring, enqueued := s.enqueued + 1 }.own r.call s.enqueued).shift t
    ⟨r.call, .push value (.writeValue pos), s.enqueued⟩

/-- The call of a thread claims the pop ticket at the cursor. -/
def claimPop (s : System Thread T C) (t : Thread) (r : Running T) (ring : MpmcRing T C)
    (pos : UInt64) : System Thread T C :=
  ({ s with ring, dequeued := s.dequeued + 1 }.own r.call s.dequeued).shift t
    ⟨r.call, .pop (.readValue pos), s.dequeued⟩

/-- The call of a thread stores the next sequence of its slot and returns. -/
def handOver (s : System Thread T C) (t : Thread) (r : Running T) (ring : MpmcRing T C)
    (turn : ℕ) (reply : Reply T) : System Thread T C :=
  { s with ring, turn := Function.update s.turn (C.index (.ofNat r.seen)) turn }.finish t r.call
    reply

/-- Write down what one step of `try_push` did. -/
def afterPush (s : System Thread T C) (t : Thread) (r : Running T) (value : T)
    (ring : MpmcRing T C) : Progress PushPoint Bool → System Thread T C
  | .running (.loadSequence pos) =>
    { s with ring }.shift t ⟨r.call, .push value (.loadSequence pos), s.enqueued⟩
  | .running (.writeValue pos) => s.claimPush t r value ring pos
  | .running point => { s with ring }.shift t ⟨r.call, .push value point, r.seen⟩
  | .returned true => s.handOver t r ring (r.seen + 1) (.pushed true)
  | .returned false => { s with ring }.finish t r.call (.pushed false)

/-- Write down what one step of `try_pop` did. -/
def afterPop (s : System Thread T C) (t : Thread) (r : Running T)
    (ring : MpmcRing T C) : Progress (PopPoint T) (Option T) → System Thread T C
  | .running (.loadSequence pos) =>
    { s with ring }.shift t ⟨r.call, .pop (.loadSequence pos), s.dequeued⟩
  | .running (.readValue pos) => s.claimPop t r ring pos
  | .running point => { s with ring }.shift t ⟨r.call, .pop point, r.seen⟩
  | .returned (some out) => s.handOver t r ring (r.seen + C.size) (.popped (some out))
  | .returned none => { s with ring }.finish t r.call (.popped none)

/-- The next access of a thread's call, if it is in one. -/
def run (s : System Thread T C) (t : Thread) (spurious : Bool) : Option (System Thread T C) :=
  match s.threads t with
  | none => none
  | some r =>
    match r.frame with
    | .push value point =>
      let step := s.ring.pushStep value spurious point
      some (s.afterPush t r value step.1 step.2)
    | .pop point =>
      let step := s.ring.popStep spurious point
      some (s.afterPop t r step.1 step.2)

def next (s : System Thread T C) : Command Thread T → Option (System Thread T C)
  | .call t request =>
    match s.threads t with
    | none => some (s.begin t request)
    | some _ => none
  | .run t spurious => s.run t spurious

/-- The record shows this call as the owner of this ticket. -/
def Ticketed (s : System Thread T C) (id : ℕ) (request : Request T) (ticket : ℕ) : Prop :=
  ∃ reply, s.calls id = some ⟨request, some ticket, reply⟩

/-- The call is a `try_push` that claimed this ticket. -/
def ClaimedPush (s : System Thread T C) (id ticket : ℕ) : Prop :=
  ∃ value, s.Ticketed id (.push value) ticket

/-- The call is a `try_pop` that claimed this ticket. -/
def ClaimedPop (s : System Thread T C) (id ticket : ℕ) : Prop := s.Ticketed id .pop ticket

/-- Some `try_push` of this value claimed the ticket. -/
def Pushed (s : System Thread T C) (ticket : ℕ) (value : T) : Prop :=
  ∃ id, s.Ticketed id (.push value) ticket

/-- That `try_push` has stored its sequence and returned. -/
def Published (s : System Thread T C) (ticket : ℕ) (value : T) : Prop :=
  ∃ id, s.calls id = some ⟨.push value, some ticket, some (.pushed true)⟩

/-- The `try_pop` that claimed the ticket has stored its sequence and returned. -/
def Released (s : System Thread T C) (ticket : ℕ) : Prop :=
  ∃ id reply, s.calls id = some ⟨.pop, some ticket, some reply⟩

end System

/-- A fresh ring and no call in progress. -/
def machine (Thread T : Type) [DecidableEq Thread] [Inhabited T] (C : Capacity) :
    Machine (System Thread T C) (Command Thread T) where
  start := ⟨MpmcRing.new T C, fun _ => none, 0, 0, fun i => i.val, 0, fun _ => none⟩
  next := System.next

/-- Runs whose cursors stay below `2 ^ 63`. -/
def smallCursors (_ : System Thread T C) (_ : Command Thread T) (s' : System Thread T C) : Prop :=
  s'.ring.enqueuePos.toNat < 2 ^ 63 ∧ s'.ring.dequeuePos.toNat < 2 ^ 63

instance (s : System Thread T C) (command : Command Thread T) (s' : System Thread T C) :
    Decidable (smallCursors s command s') :=
  inferInstanceAs (Decidable (_ ∧ _))

/-! ## What one step can do -/

/-- The load that makes a call give up: its slot's sequence is behind the one it
needs. -/
inductive Refused (ring : MpmcRing T C) : Frame T → Reply T → Prop where
  | push {value : T} {pos : UInt64}
      (behind : Cursor.signedDiff (ring.slot pos).sequence pos < 0) :
      Refused ring (.push value (.loadSequence pos)) (.pushed false)
  | pop {pos : UInt64} (behind : Cursor.signedDiff (ring.slot pos).sequence (pos + 1) < 0) :
      Refused ring (.pop (.loadSequence pos)) (.popped none)

/-- The record-keeping view of a step: a call starts, moves on, claims the next
ticket of its side, or returns. -/
inductive Booked (s : System Thread T C) : System Thread T C → Prop where
  | begin {t : Thread} {request : Request T} (idle : s.threads t = none) :
      Booked s (s.begin t request)
  | shift {t : Thread} {r r' : Running T} {ring : MpmcRing T C} (inside : s.threads t = some r)
      (call : r'.call = r.call) (request : r'.frame.request = r.frame.request)
      (claimed : r'.frame.claimed = r.frame.claimed)
      (seen : r.frame.claimed = true → r'.seen = r.seen) :
      Booked s ({ s with ring }.shift t r')
  | claimPush {t : Thread} {r : Running T} {value : T} {point : PushPoint} {pos : UInt64}
      {ring : MpmcRing T C} (inside : s.threads t = some r) (frame : r.frame = .push value point)
      (unclaimed : r.frame.claimed = false) : Booked s (s.claimPush t r value ring pos)
  | claimPop {t : Thread} {r : Running T} {point : PopPoint T} {pos : UInt64}
      {ring : MpmcRing T C} (inside : s.threads t = some r) (frame : r.frame = .pop point)
      (unclaimed : r.frame.claimed = false) : Booked s (s.claimPop t r ring pos)
  | refuse {t : Thread} {r : Running T} {ring : MpmcRing T C} {reply : Reply T}
      (inside : s.threads t = some r) (unclaimed : r.frame.claimed = false)
      (reason : Refused s.ring r.frame reply) :
      Booked s ({ s with ring }.finish t r.call reply)
  | publish {t : Thread} {r : Running T} {value : T} {pos : UInt64} {ring : MpmcRing T C} {turn : ℕ}
      (inside : s.threads t = some r) (frame : r.frame = .push value (.storeSequence pos)) :
      Booked s (s.handOver t r ring turn (.pushed true))
  | release {t : Thread} {r : Running T} {out : T} {pos : UInt64} {ring : MpmcRing T C} {turn : ℕ}
      (inside : s.threads t = some r) (frame : r.frame = .pop (.storeSequence pos out)) :
      Booked s (s.handOver t r ring turn (.popped (some out)))

private theorem shift_push {s : System Thread T C} {t : Thread} {r : Running T} {value : T}
    {point point' : PushPoint} {ring : MpmcRing T C} {seen : ℕ} (inside : s.threads t = some r)
    (frame : r.frame = .push value point)
    (claimed : (Frame.push value point').claimed = (Frame.push value point).claimed)
    (kept : (Frame.push value point).claimed = true → seen = r.seen) :
    Booked s ({ s with ring }.shift t ⟨r.call, .push value point', seen⟩) :=
  .shift inside rfl (by rw [frame]; rfl) (by rw [frame]; exact claimed) (by rw [frame]; exact kept)

private theorem shift_pop {s : System Thread T C} {t : Thread} {r : Running T}
    {point point' : PopPoint T} {ring : MpmcRing T C} {seen : ℕ} (inside : s.threads t = some r)
    (frame : r.frame = .pop point)
    (claimed : (Frame.pop point').claimed = (Frame.pop point).claimed)
    (kept : (Frame.pop point).claimed = true → seen = r.seen) :
    Booked s ({ s with ring }.shift t ⟨r.call, .pop point', seen⟩) :=
  .shift inside rfl (by rw [frame]; rfl) (by rw [frame]; exact claimed) (by rw [frame]; exact kept)

/-- Every step is one of these. -/
theorem booked {s s' : System Thread T C} {command : Command Thread T}
    (moved : s.next command = some s') : Booked s s' := by
  cases command with
  | call t request =>
    simp only [System.next] at moved
    split at moved
    · rename_i idle
      cases moved
      exact .begin idle
    · cases moved
  | run t spurious =>
    simp only [System.next, System.run] at moved
    split at moved
    · cases moved
    · rename_i r inside
      split at moved
      · rename_i value point frame
        have unclaimed (free : (Frame.push value point).claimed = false) :
            r.frame.claimed = false := frame ▸ free
        cases moved
        cases point with
        | loadPos => exact shift_push inside frame rfl nofun
        | loadSequence pos =>
          simp only [MpmcRing.pushStep]
          split
          · exact shift_push inside frame rfl nofun
          · split
            · rename_i behind
              exact .refuse inside (unclaimed rfl) (frame ▸ .push behind)
            · exact shift_push inside frame rfl nofun
        | exchange pos =>
          simp only [MpmcRing.pushStep]
          split
          · exact .claimPush inside frame (unclaimed rfl)
          · exact shift_push inside frame rfl nofun
        | writeValue pos => exact shift_push inside frame rfl fun _ => rfl
        | storeSequence pos => exact .publish inside frame
      · rename_i point frame
        have unclaimed (free : (Frame.pop point).claimed = false) :
            r.frame.claimed = false := frame ▸ free
        cases moved
        cases point with
        | loadPos => exact shift_pop inside frame rfl nofun
        | loadSequence pos =>
          simp only [MpmcRing.popStep]
          split
          · exact shift_pop inside frame rfl nofun
          · split
            · rename_i behind
              exact .refuse inside (unclaimed rfl) (frame ▸ .pop behind)
            · exact shift_pop inside frame rfl nofun
        | exchange pos =>
          simp only [MpmcRing.popStep]
          split
          · exact .claimPop inside frame (unclaimed rfl)
          · exact shift_pop inside frame rfl nofun
        | readValue pos => exact shift_pop inside frame rfl fun _ => rfl
        | storeSequence pos out => exact .release inside frame

/-- The steps of other threads leave a call where it is. -/
theorem other_step {s s' : System Thread T C} {t : Thread} {command : Command Thread T}
    (moved : s.next command = some s') (elsewhere : command.thread ≠ t) :
    s'.threads t = s.threads t := by
  cases command with
  | call t' request =>
    simp only [System.next] at moved
    split at moved
    · cases moved
      exact Function.update_of_ne elsewhere.symm _ _
    · cases moved
  | run t' spurious =>
    simp only [System.next, System.run] at moved
    split at moved
    · cases moved
    · split at moved
      · cases moved
        unfold System.afterPush
        split <;> exact Function.update_of_ne elsewhere.symm _ _
      · cases moved
        unfold System.afterPop
        split <;> exact Function.update_of_ne elsewhere.symm _ _

end Ringio.MpmcSystem
