import Mathlib.Data.Finset.Insert
import Ringio.FreeListSystem
import Ringio.ReleaseAcquire

/-! The free list of `BufferPool` under the memory orders it is written with. Loads
of `free_head_` and `free_next_` may return old values, and a buffer is a plain
cell that only its holder may touch: that a buffer comes to its next holder with
everything the last one did to it is what the orders are for. -/
namespace Ringio.FreeListOrders
open ReleaseAcquire LinkedStack FreeListSystem

/-- `free_head_` and the elements of `free_next_`, which are 32 bits wide. -/
inductive Location where
  | freeHead
  | freeNext (index : UInt32)
  deriving DecidableEq

/-- The orders of `acquire`'s loads of the head and of the two successful exchanges.
Every other access is relaxed. -/
structure Orders where
  firstLoad : LoadOrder
  failedExchange : LoadOrder
  take : LoadOrder × StoreOrder
  put : LoadOrder × StoreOrder
  deriving DecidableEq

/-- The orders of `buffer_pool.hpp`. -/
def Orders.source : Orders where
  firstLoad := .acquire
  failedExchange := .acquire
  take := (.acquire, .release)
  put := (.acquire, .release)

/-- The pool, the threads with their views and the buffers they hold. `log` lists
the exchanges that succeeded; no step reads it, nor `Running.seen`, the number of
the head a call acts on. -/
structure System (Thread B : Type) where
  memory : Memory Location UInt32 UInt64 B
  threads : Thread → Option Running
  views : Thread → View Location UInt32
  held : Thread → Finset UInt32
  log : List (Event UInt32)

/-- A thread calls `acquire`, or `release` on a buffer it holds, or makes the next
access of its call; between calls it writes to a buffer it holds or hands it to
another thread, which then knows what it knows. -/
inductive Command (Thread B : Type) where
  | acquire (thread : Thread)
  | release (thread : Thread) (index : UInt32)
  | run (thread : Thread) (number : ℕ) (fails : Bool)
  | write (thread : Thread) (index : UInt32) (value : B)
  | pass (thread receiver : Thread) (index : UInt32)

variable {Thread B : Type} [DecidableEq Thread]

namespace System

/-- A thread moves on or returns, with this memory and this view. -/
def move (s : System Thread B) (t : Thread) (memory : Memory Location UInt32 UInt64 B)
    (view : View Location UInt32) (running : Option Running) : System Thread B :=
  { s with
    memory := memory
    threads := Function.update s.threads t running
    views := Function.update s.views t view }

/-- The top of the `acquire` loop with the head it has loaded. -/
def look (s : System Thread B) (t : Thread) (number : ℕ) (head : UInt64)
    (view : View Location UInt32) : System Thread B :=
  if unpackIndex head = kInvalidIndex then s.move t s.memory view none
  else s.move t s.memory view (some ⟨.acquire (.loadNext head), number⟩)

/-- The next access of `acquire`. -/
def acquireStep (orders : Orders) (s : System Thread B) (t : Thread) (seen number : ℕ)
    (fails : Bool) : AcquirePoint → Option (System Thread B)
  | .loadHead =>
    (s.memory.load (s.views t) orders.firstLoad .freeHead number).map fun loaded =>
      s.look t number loaded.1 loaded.2
  | .loadNext head =>
    (s.memory.load (s.views t) .relaxed (.freeNext (unpackIndex head)) number).map fun loaded =>
      s.move t s.memory loaded.2 (some ⟨.acquire (.exchange head loaded.1.toUInt32), seen⟩)
  | .exchange head next =>
    if fails then
      (s.memory.load (s.views t) orders.failedExchange .freeHead number).map fun loaded =>
        s.look t number loaded.1 loaded.2
    else if s.memory.latest .freeHead = some head then
      (s.memory.exchange (s.views t) orders.take.1 orders.take.2 .freeHead
        (pack next (unpackTag head + 1))).map fun done =>
          { s.move t done.1 done.2 none with
            held := Function.update s.held t (insert (unpackIndex head) (s.held t))
            log := s.log ++ [.popped (some (unpackIndex head))] }
    else none

/-- The next access of `release`. -/
def releaseStep (orders : Orders) (s : System Thread B) (t : Thread) (index : UInt32)
    (number : ℕ) (fails : Bool) : ReleasePoint → Option (System Thread B)
  | .loadHead =>
    (s.memory.load (s.views t) .relaxed .freeHead number).map fun loaded =>
      s.move t s.memory loaded.2 (some ⟨.release index (.storeNext loaded.1), number⟩)
  | .storeNext head =>
    let done := s.memory.store (s.views t) .relaxed (.freeNext index) (unpackIndex head).toUInt64
    some (s.move t done.1 done.2 (some ⟨.release index (.exchange head), 0⟩))
  | .exchange head =>
    if fails then
      (s.memory.load (s.views t) .relaxed .freeHead number).map fun loaded =>
        s.move t s.memory loaded.2 (some ⟨.release index (.storeNext loaded.1), number⟩)
    else if s.memory.latest .freeHead = some head then
      (s.memory.exchange (s.views t) orders.put.1 orders.put.2 .freeHead
        (pack index (unpackTag head + 1))).map fun done =>
          { s.move t done.1 done.2 none with
            held := Function.update s.held t ((s.held t).erase index)
            log := s.log ++ [.pushed index] }
    else none

def next (orders : Orders) (s : System Thread B) : Command Thread B → Option (System Thread B)
  | .acquire t =>
    match s.threads t with
    | none => some (s.move t s.memory (s.views t) (some ⟨.acquire .loadHead, 0⟩))
    | some _ => none
  | .release t index =>
    match s.threads t with
    | none =>
      if index ∈ s.held t then
        some (s.move t s.memory (s.views t) (some ⟨.release index .loadHead, 0⟩))
      else none
    | some _ => none
  | .run t number fails =>
    match s.threads t with
    | none => none
    | some ⟨.acquire point, seen⟩ => s.acquireStep orders t seen number fails point
    | some ⟨.release index point, _⟩ => s.releaseStep orders t index number fails point
  | .write t index value =>
    if s.threads t = none ∧ index ∈ s.held t then
      let done := s.memory.write (s.views t) index value
      some (s.move t done.1 done.2 none)
    else none
  | .pass t t' index =>
    if s.threads t = none ∧ s.threads t' = none ∧ t' ≠ t ∧ index ∈ s.held t then
      some { s with
        views := Function.update s.views t' (s.views t' ⊔ s.views t)
        held := Function.update (Function.update s.held t ((s.held t).erase index)) t'
          (insert index (s.held t')) }
    else none

/-- The number of the last write of the head. -/
def swaps (s : System Thread B) : ℕ := (s.memory.writes .freeHead).length - 1

end System

/-- What the constructor leaves in the atomics. -/
def initial (bufferCount : ℕ) : Location → UInt64
  | .freeHead => (FreeList.new bufferCount).freeHead
  | .freeNext index => ((FreeList.new bufferCount).next index).toUInt64

/-- A fresh pool that every thread knows of. -/
def machine (Thread B : Type) [DecidableEq Thread] [Inhabited B] (bufferCount : ℕ)
    (orders : Orders) : Machine (System Thread B) (Command Thread B) where
  start :=
    { memory := .start (initial bufferCount) (fun _ => default)
      threads := fun _ => none
      views := fun _ _ => 0
      held := fun _ => ∅
      log := [] }
  next := System.next orders

/-- The number of the head that `acquire` is about to exchange in a thread. -/
def System.acting (s : System Thread B) (t : Thread) : Option ℕ :=
  match s.threads t with
  | some ⟨.acquire (.exchange _ _), seen⟩ => some seen
  | _ => none

/-- The thread whose exchange the command lets succeed, if it is at one. -/
def Command.exchanger : Command Thread B → Option Thread
  | .run t _ false => some t
  | _ => none

/-- Runs in which no `acquire` succeeds on a head that is `2 ^ 32` exchanges old. -/
def recentHeads (s : System Thread B) (command : Command Thread B) (_ : System Thread B) : Prop :=
  ∀ seen ∈ command.exchanger.bind s.acting, s.swaps < seen + 2 ^ 32

instance (s : System Thread B) (command : Command Thread B) (s' : System Thread B) :
    Decidable (recentHeads s command s') :=
  inferInstanceAs (Decidable (∀ seen ∈ _, _))

end Ringio.FreeListOrders
