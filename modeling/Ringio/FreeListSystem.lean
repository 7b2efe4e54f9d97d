import Ringio.FreeList

/-! Any number of threads calling `acquire` and `release` on one pool, one shared
access at a time. Callers own indices between the two calls and release only
what is held, each index once. Beside the program the system counts successful
compare-exchanges on the head and logs the operations in the order in which
they take effect. -/
namespace Ringio.FreeListSystem
open LinkedStack

/-- A call in progress. -/
inductive Frame where
  | acquire (point : AcquirePoint)
  | release (index : UInt32) (point : ReleasePoint)
  deriving DecidableEq

/-- The index an unfinished `release` is carrying back. -/
def Frame.carries : Frame → Option UInt32
  | .acquire _ => none
  | .release index _ => some index

/-- A thread inside a call. `seen` is the number of successful exchanges up to
its latest read of the head. -/
structure Running where
  frame : Frame
  seen : ℕ
  deriving DecidableEq

/-- The free list, the threads, the indices callers hold, and the record. -/
structure System (Thread : Type) where
  list : FreeList
  threads : Thread → Option Running
  held : List UInt32
  swaps : ℕ
  log : List (Event UInt32)

/-- A thread calls `acquire`, or `release` on a held index, or makes the next
access of its call. -/
inductive Command (Thread : Type) where
  | acquire (thread : Thread)
  | release (thread : Thread) (index : UInt32)
  | run (thread : Thread) (spurious : Bool)

variable {Thread : Type} [DecidableEq Thread]

namespace System

/-- A thread moves on inside its call. -/
def shift (s : System Thread) (t : Thread) (r : Running) : System Thread :=
  { s with threads := Function.update s.threads t (some r) }

/-- The call of a thread returns. -/
def finish (s : System Thread) (t : Thread) (event : Event UInt32) : System Thread :=
  { s with threads := Function.update s.threads t none, log := s.log ++ [event] }

/-- A held index leaves its holder's hands. -/
def withdraw (s : System Thread) (t : Thread) (index : UInt32) : System Thread :=
  { s with held := s.held.erase index }.shift t ⟨.release index .loadHead, 0⟩

/-- `acquire` has exchanged the head and returns the index to its caller. -/
def take (s : System Thread) (t : Thread) (list : FreeList) (index : UInt32) : System Thread :=
  { s with list, held := index :: s.held, swaps := s.swaps + 1 }.finish t (.popped (some index))

/-- `release` has exchanged the head and returns. -/
def put (s : System Thread) (t : Thread) (list : FreeList) (index : UInt32) : System Thread :=
  { s with list, swaps := s.swaps + 1 }.finish t (.pushed index)

/-- Write down what one step of `acquire` did. -/
def afterAcquire (s : System Thread) (t : Thread) (r : Running) (list : FreeList) :
    Progress AcquirePoint UInt32 → System Thread
  | .running (.loadNext head) => { s with list }.shift t ⟨.acquire (.loadNext head), s.swaps⟩
  | .running point => { s with list }.shift t ⟨.acquire point, r.seen⟩
  | .returned index =>
    if index = kInvalidIndex then { s with list }.finish t (.popped none) else s.take t list index

/-- Write down what one step of `release` did. -/
def afterRelease (s : System Thread) (t : Thread) (index : UInt32) (list : FreeList) :
    Progress ReleasePoint Unit → System Thread
  | .running point => { s with list }.shift t ⟨.release index point, s.swaps⟩
  | .returned () => s.put t list index

/-- The next access of a thread's call, if it is in one. -/
def run (s : System Thread) (t : Thread) (spurious : Bool) : Option (System Thread) :=
  match s.threads t with
  | none => none
  | some r =>
    match r.frame with
    | .acquire point =>
      let step := s.list.acquireStep spurious point
      some (s.afterAcquire t r step.1 step.2)
    | .release index point =>
      let step := s.list.releaseStep index spurious point
      some (s.afterRelease t index step.1 step.2)

def next (s : System Thread) : Command Thread → Option (System Thread)
  | .acquire t =>
    match s.threads t with
    | none => some (s.shift t ⟨.acquire .loadHead, 0⟩)
    | some _ => none
  | .release t index =>
    match s.threads t with
    | none => if index ∈ s.held then some (s.withdraw t index) else none
    | some _ => none
  | .run t spurious => s.run t spurious

/-- The index a thread is inside an unfinished `release` of. -/
def releasing (s : System Thread) (t : Thread) : Option UInt32 :=
  (s.threads t).bind fun r => r.frame.carries

end System

/-- A fresh pool, every index on the list, nobody in a call. -/
def machine (Thread : Type) [DecidableEq Thread] (bufferCount : ℕ) :
    Machine (System Thread) (Command Thread) where
  start := ⟨.new bufferCount, fun _ => none, [], 0, []⟩
  next := System.next

/-- A thread at the compare-exchange of `acquire`, with its locals. -/
def Exchanging (s : System Thread) (t : Thread) (head : UInt64) (next : UInt32) (seen : ℕ) : Prop :=
  s.threads t = some ⟨.acquire (.exchange head next), seen⟩

/-- Runs in which fewer than `2 ^ 32` exchanges of the head succeed between any
`acquire`'s latest read of it and its own successful exchange. -/
def fewSwaps (s : System Thread) (command : Command Thread) (_ : System Thread) : Prop :=
  ∀ t next seen, command = .run t false → Exchanging s t s.list.freeHead next seen →
    s.swaps < seen + 2 ^ 32

/-- Runs of a pool of two or more in which no `acquire` exchanges the head a
positive multiple of `2 ^ 32` successful exchanges after its latest read of it,
and all runs of a pool of one. -/
def noWrap (bufferCount : ℕ) (s : System Thread) (command : Command Thread)
    (_ : System Thread) : Prop :=
  ∀ t next seen, 1 < bufferCount → command = .run t false →
    Exchanging s t s.list.freeHead next seen → seen < s.swaps → (s.swaps - seen) % 2 ^ 32 ≠ 0

omit [DecidableEq Thread] in
theorem noWrap_of_fewSwaps {s s' : System Thread} {command : Command Thread} (bufferCount : ℕ)
    (few : fewSwaps s command s') : noWrap bufferCount s command s' := by
  intro t next seen _ run exchanging later wrapped
  have bound := few t next seen run exchanging
  omega

omit [DecidableEq Thread] in
/-- Runs with fewer than `2 ^ 32` exchanges in all are among these. -/
theorem fewSwaps_of_lt {s s' : System Thread} {command : Command Thread}
    (below : s.swaps < 2 ^ 32) : fewSwaps s command s' :=
  fun _ _ seen _ _ => below.trans_le (Nat.le_add_left _ seen)

/-! ## What one step can do -/

/-- Every step: calls start, an acquiring thread reads the head and finds it
empty or not, reads the successor, takes the head; a releasing thread reads the
head, links its index, puts it on top. -/
inductive Moved (s : System Thread) : Command Thread → System Thread → Prop where
  | acquire {t : Thread} (idle : s.threads t = none) :
      Moved s (.acquire t) (s.shift t ⟨.acquire .loadHead, 0⟩)
  | release {t : Thread} {index : UInt32} (idle : s.threads t = none) (owned : index ∈ s.held) :
      Moved s (.release t index) (s.withdraw t index)
  | look {t : Thread} {r : Running} {point : AcquirePoint} {spurious : Bool}
      (inside : s.threads t = some r) (frame : r.frame = .acquire point)
      (more : unpackIndex s.list.freeHead ≠ kInvalidIndex) :
      Moved s (.run t spurious) (s.shift t ⟨.acquire (.loadNext s.list.freeHead), s.swaps⟩)
  | empty {t : Thread} {r : Running} {point : AcquirePoint} {spurious : Bool}
      (inside : s.threads t = some r) (frame : r.frame = .acquire point)
      (reads : point = .loadHead ∨ ∃ head next, point = .exchange head next)
      (ended : unpackIndex s.list.freeHead = kInvalidIndex) :
      Moved s (.run t spurious) (s.finish t (.popped none))
  | follow {t : Thread} {r : Running} {head : UInt64} {spurious : Bool}
      (inside : s.threads t = some r) (frame : r.frame = .acquire (.loadNext head)) :
      Moved s (.run t spurious)
        (s.shift t ⟨.acquire (.exchange head (s.list.next (unpackIndex head))), r.seen⟩)
  | take {t : Thread} {seen : ℕ} {next : UInt32}
      (exchanging : Exchanging s t s.list.freeHead next seen)
      (proper : unpackIndex s.list.freeHead ≠ kInvalidIndex) :
      Moved s (.run t false) (s.take t
        { s.list with freeHead := pack next (unpackTag s.list.freeHead + 1) }
        (unpackIndex s.list.freeHead))
  | ready {t : Thread} {r : Running} {index : UInt32} {point : ReleasePoint} {spurious : Bool}
      (inside : s.threads t = some r) (frame : r.frame = .release index point) :
      Moved s (.run t spurious) (s.shift t ⟨.release index (.storeNext s.list.freeHead), s.swaps⟩)
  | link {t : Thread} {r : Running} {index : UInt32} {head : UInt64} {spurious : Bool}
      (inside : s.threads t = some r) (frame : r.frame = .release index (.storeNext head)) :
      Moved s (.run t spurious) ({ s with list := { s.list with
        freeNext := Function.update s.list.freeNext index.toNat (unpackIndex head) } }.shift t
          ⟨.release index (.exchange head), s.swaps⟩)
  | put {t : Thread} {r : Running} {index : UInt32}
      (inside : s.threads t = some r)
      (frame : r.frame = .release index (.exchange s.list.freeHead)) :
      Moved s (.run t false) (s.put t
        { s.list with freeHead := pack index (unpackTag s.list.freeHead + 1) } index)

private theorem look_moved {s : System Thread} {t : Thread} {r : Running} {point : AcquirePoint}
    {spurious : Bool} (inside : s.threads t = some r) (frame : r.frame = .acquire point)
    (reads : point = .loadHead ∨ ∃ head next, point = .exchange head next) :
    Moved s (.run t spurious) (s.afterAcquire t r s.list (FreeList.look s.list.freeHead)) := by
  unfold FreeList.look
  split
  · rename_i ended
    exact .empty inside frame reads ended
  · rename_i more
    exact .look inside frame more

/-- Every step is one of these, as long as no thread is about to exchange an
index that ends the list. -/
theorem moved_of_next {s s' : System Thread} {command : Command Thread}
    (proper : ∀ t head next seen, Exchanging s t head next seen → unpackIndex head ≠ kInvalidIndex)
    (stepped : s.next command = some s') : Moved s command s' := by
  cases command with
  | acquire t =>
    simp only [System.next] at stepped
    split at stepped
    · rename_i idle
      cases stepped
      exact .acquire idle
    · cases stepped
  | release t index =>
    simp only [System.next] at stepped
    split at stepped
    · rename_i idle
      split at stepped
      · rename_i owned
        cases stepped
        exact .release idle owned
      · cases stepped
    · cases stepped
  | run t spurious =>
    simp only [System.next, System.run] at stepped
    split at stepped
    · cases stepped
    · rename_i r inside
      split at stepped
      · rename_i point frame
        cases stepped
        cases point with
        | loadHead => exact look_moved inside frame (.inl rfl)
        | loadNext head => exact .follow inside frame
        | exchange head next =>
          have exchanging : Exchanging s t head next r.seen := by
            rw [Exchanging, inside, ← frame]
          simp only [FreeList.acquireStep]
          split
          · rename_i won
            obtain ⟨rfl, rfl⟩ := won
            have more := proper t _ next r.seen exchanging
            simp only [System.afterAcquire, if_neg more]
            exact .take exchanging more
          · exact look_moved inside frame (.inr ⟨head, next, rfl⟩)
      · rename_i index point frame
        cases stepped
        cases point with
        | loadHead => exact .ready inside frame
        | storeNext head => exact .link inside frame
        | exchange head =>
          simp only [FreeList.releaseStep]
          split
          · rename_i won
            obtain ⟨rfl, rfl⟩ := won
            exact .put inside frame
          · exact .ready inside frame

end Ringio.FreeListSystem
