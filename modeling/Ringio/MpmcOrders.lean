import Ringio.Machine
import Ringio.Cursor
import Ringio.ReleaseAcquire

/-! `MpmcRing` under the memory orders it is written with, for any number of
threads. Loads of the cursors are relaxed and may return any old position, a
failing compare-exchange too; only the slot sequences carry an order. `try_push`
and `try_pop` are the same loop over different cursors, sequences and slot
accesses, so each is that loop at its own values. -/
namespace Ringio.MpmcOrders
open ReleaseAcquire

/-- `try_push` and `try_pop`. -/
inductive Side where
  | push
  | pop
  deriving DecidableEq

/-- `enqueue_pos_`, `dequeue_pos_` and the sequence of each slot. -/
inductive Location (C : Capacity) where
  | enqueuePos
  | dequeuePos
  | sequence (slot : Fin C.size)
  deriving DecidableEq

/-- The orders of the loads and stores of the slot sequences. -/
structure Orders where
  load : Side → LoadOrder
  store : Side → StoreOrder

/-- The orders of `mpmc_ring.hpp`. -/
def Orders.source : Orders where
  load := fun _ => .acquire
  store := fun _ => .release

namespace Side

/-- The cursor the loop claims positions from. -/
def cursor (C : Capacity) : Side → Location C
  | .push => .enqueuePos
  | .pop => .dequeuePos

/-- The sequence that makes a position available: `pos` to a push, `pos + 1` to a
pop. -/
def ready : Side → UInt64 → UInt64
  | .push, pos => pos
  | .pop, pos => pos + 1

/-- The sequence stored at the end: `pos + 1` by a push, `pos + Capacity` by a
pop. -/
def handed (C : Capacity) : Side → UInt64 → UInt64
  | .push, pos => pos + 1
  | .pop, pos => pos + C.value

end Side

/-- Program points of the loop. `access` is the slot copy after a successful
compare-exchange. -/
inductive Point where
  | loadPos
  | loadSequence (pos : UInt64)
  | exchange (pos : UInt64)
  | access (pos : UInt64)
  | storeSequence (pos : UInt64)

/-- A call in progress. `value` is the argument of a push and what `out` holds in a
pop. -/
structure Running (T : Type) where
  side : Side
  value : T
  point : Point

/-- A call that returned true, with the position it claimed. -/
structure Entry (Thread T : Type) where
  thread : Thread
  ticket : ℕ
  value : T

/-- The shared memory and the threads with their views. `log` lists the calls that
returned true; no step reads it. -/
structure System (Thread T : Type) (C : Capacity) where
  memory : Memory (Location C) (Fin C.size) UInt64 T
  threads : Thread → Option (Running T)
  views : Thread → View (Location C) (Fin C.size)
  log : Side → List (Entry Thread T)

/-- A thread starts a call or makes its next access. A load returns the write with
this number; a compare-exchange that fails is such a load, and a weak one may fail
whenever it likes. -/
inductive Command (Thread T : Type) where
  | call (thread : Thread) (side : Side) (value : T)
  | run (thread : Thread) (number : ℕ) (fails : Bool)

variable {Thread T : Type} [DecidableEq Thread] {C : Capacity}

namespace System

/-- A thread moves on or returns, with this memory and this view. -/
def move (s : System Thread T C) (t : Thread)
    (memory : Memory (Location C) (Fin C.size) UInt64 T) (view : View (Location C) (Fin C.size))
    (running : Option (Running T)) : System Thread T C :=
  { s with
    memory := memory
    threads := Function.update s.threads t running
    views := Function.update s.views t view }

/-- The slot copy: a push writes its argument, a pop reads into `out`. -/
def copy (s : System Thread T C) (t : Thread) (r : Running T) (pos : UInt64) :
    System Thread T C :=
  match r.side with
  | .push =>
    let done := s.memory.write (s.views t) (C.index pos) r.value
    s.move t done.1 done.2 (some { r with point := .storeSequence pos })
  | .pop =>
    let done := s.memory.access (s.views t) (C.index pos)
    s.move t done.1 done.2
      (some ⟨.pop, s.memory.contents (C.index pos), .storeSequence pos⟩)

/-- What the call does with the sequence it loaded: claim, give up or start over. -/
def judge (r : Running T) (pos sequence : UInt64) : Option (Running T) :=
  let diff := Cursor.signedDiff sequence (r.side.ready pos)
  if diff = 0 then some { r with point := .exchange pos }
  else if diff < 0 then none
  else some { r with point := .loadPos }

/-- The next access of a call. -/
def access (orders : Orders) (s : System Thread T C) (t : Thread) (r : Running T) (number : ℕ)
    (fails : Bool) : Option (System Thread T C) :=
  match r.point with
  | .loadPos =>
    (s.memory.load (s.views t) .relaxed (r.side.cursor C) number).map fun loaded =>
      s.move t s.memory loaded.2 (some { r with point := .loadSequence loaded.1 })
  | .loadSequence pos =>
    (s.memory.load (s.views t) (orders.load r.side) (.sequence (C.index pos)) number).map
      fun loaded => s.move t s.memory loaded.2 (judge r pos loaded.1)
  | .exchange pos =>
    if fails then
      (s.memory.load (s.views t) .relaxed (r.side.cursor C) number).map fun loaded =>
        s.move t s.memory loaded.2 (some { r with point := .loadSequence loaded.1 })
    else if s.memory.latest (r.side.cursor C) = some pos then
      (s.memory.exchange (s.views t) .relaxed .relaxed (r.side.cursor C) (pos + 1)).map
        fun done => s.move t done.1 done.2 (some { r with point := .access pos })
    else none
  | .access pos => some (s.copy t r pos)
  | .storeSequence pos =>
    let done := s.memory.store (s.views t) (orders.store r.side) (.sequence (C.index pos))
      (r.side.handed C pos)
    some { s.move t done.1 done.2 none with
      log := Function.update s.log r.side (s.log r.side ++ [⟨t, pos.toNat, r.value⟩]) }

def next (orders : Orders) (s : System Thread T C) :
    Command Thread T → Option (System Thread T C)
  | .call t side value =>
    match s.threads t with
    | none => some (s.move t s.memory (s.views t) (some ⟨side, value, .loadPos⟩))
    | some _ => none
  | .run t number fails =>
    match s.threads t with
    | none => none
    | some r => s.access orders t r number fails

/-- The positions claimed so far. -/
def claims (s : System Thread T C) (side : Side) : ℕ :=
  (s.memory.writes (side.cursor C)).length - 1

end System

/-- What the constructor leaves in the atomics. -/
def initial (C : Capacity) : Location C → UInt64
  | .enqueuePos => 0
  | .dequeuePos => 0
  | .sequence i => .ofNat i

/-- A fresh ring that every thread knows of. -/
def machine (Thread T : Type) [DecidableEq Thread] [Inhabited T] (C : Capacity)
    (orders : Orders) : Machine (System Thread T C) (Command Thread T) where
  start :=
    { memory := .start (initial C) (fun _ => default)
      threads := fun _ => none
      views := fun _ _ => 0
      log := fun _ => [] }
  next := System.next orders

/-- Runs that claim fewer than `2 ^ 63` positions on either side. -/
def smallCursors (_ : System Thread T C) (_ : Command Thread T) (s' : System Thread T C) : Prop :=
  ∀ side, s'.claims side < 2 ^ 63

instance (s : System Thread T C) (command : Command Thread T) (s' : System Thread T C) :
    Decidable (smallCursors s command s') :=
  decidable_of_iff (s'.claims .push < 2 ^ 63 ∧ s'.claims .pop < 2 ^ 63)
    ⟨fun both side => match side with
      | .push => both.1
      | .pop => both.2, fun all => ⟨all .push, all .pop⟩⟩

end Ringio.MpmcOrders
