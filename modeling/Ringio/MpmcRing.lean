import Ringio.BoundedFifo
import Ringio.Cursor
import Ringio.Machine

/-! `MpmcRing` (`mpmc_ring.hpp`), one shared access at a time. Both member
functions are loops over a local `pos`, so each is a step function on the
program point and the locals that are live there; a call alone on the ring is
that function iterated. Concurrent calls interleave the same steps. -/
namespace Ringio
open BoundedFifo

/-- `MpmcRing::Slot`. -/
structure Slot (T : Type) where
  sequence : UInt64
  value : T

/-- `slots_` and the two cursors. The capacity type is the class's
`static_assert`, which admits a capacity of one. -/
structure MpmcRing (T : Type) (C : Capacity) where
  slots : Fin C.size → Slot T
  enqueuePos : UInt64
  dequeuePos : UInt64

/-- Program points of `try_push`. `exchange` is the compare-exchange on
`enqueue_pos_`; `writeValue` and `storeSequence` follow its success. -/
inductive PushPoint where
  | loadPos
  | loadSequence (pos : UInt64)
  | exchange (pos : UInt64)
  | writeValue (pos : UInt64)
  | storeSequence (pos : UInt64)
  deriving DecidableEq

/-- Program points of `try_pop`; `out` is live once the slot has been copied. -/
inductive PopPoint (T : Type) where
  | loadPos
  | loadSequence (pos : UInt64)
  | exchange (pos : UInt64)
  | readValue (pos : UInt64)
  | storeSequence (pos : UInt64) (out : T)

/-- The compare-exchanges executed at a point: one or none. -/
def PushPoint.exchanges : PushPoint → ℕ
  | .exchange _ => 1
  | _ => 0

def PopPoint.exchanges {T : Type} : PopPoint T → ℕ
  | .exchange _ => 1
  | _ => 0

namespace MpmcRing
variable {T : Type} {C : Capacity}

/-- The constructor stores each slot's own index in its sequence. -/
def new (T : Type) [Inhabited T] (C : Capacity) : MpmcRing T C where
  slots := fun i => ⟨.ofNat i, default⟩
  enqueuePos := 0
  dequeuePos := 0

/-- `slots_[pos & kMask]`. -/
def slot (ring : MpmcRing T C) (pos : UInt64) : Slot T := ring.slots (C.index pos)

/-- `slot.value = value`. -/
def writeValue (ring : MpmcRing T C) (pos : UInt64) (value : T) : MpmcRing T C :=
  { ring with
    slots := Function.update ring.slots (C.index pos) { ring.slot pos with value } }

/-- `slot.sequence.store(sequence)`. -/
def storeSequence (ring : MpmcRing T C) (pos sequence : UInt64) : MpmcRing T C :=
  { ring with
    slots := Function.update ring.slots (C.index pos) { ring.slot pos with sequence } }

/-- One step of `MpmcRing::try_push`. A weak compare-exchange may fail
spuriously; failing, it leaves the current cursor in `pos`. -/
def pushStep (ring : MpmcRing T C) (value : T) (spurious : Bool) :
    PushPoint → MpmcRing T C × Progress PushPoint Bool
  | .loadPos => (ring, .running (.loadSequence ring.enqueuePos))
  | .loadSequence pos =>
    let diff := Cursor.signedDiff (ring.slot pos).sequence pos
    if diff = 0 then (ring, .running (.exchange pos))
    else if diff < 0 then (ring, .returned false)
    else (ring, .running .loadPos)
  | .exchange pos =>
    if ring.enqueuePos = pos ∧ spurious = false then
      ({ ring with enqueuePos := pos + 1 }, .running (.writeValue pos))
    else (ring, .running (.loadSequence ring.enqueuePos))
  | .writeValue pos => (ring.writeValue pos value, .running (.storeSequence pos))
  | .storeSequence pos => (ring.storeSequence pos (pos + 1), .returned true)

/-- One step of `MpmcRing::try_pop`; returning `none` is the `false` return. -/
def popStep (ring : MpmcRing T C) (spurious : Bool) :
    PopPoint T → MpmcRing T C × Progress (PopPoint T) (Option T)
  | .loadPos => (ring, .running (.loadSequence ring.dequeuePos))
  | .loadSequence pos =>
    let diff := Cursor.signedDiff (ring.slot pos).sequence (pos + 1)
    if diff = 0 then (ring, .running (.exchange pos))
    else if diff < 0 then (ring, .returned none)
    else (ring, .running .loadPos)
  | .exchange pos =>
    if ring.dequeuePos = pos ∧ spurious = false then
      ({ ring with dequeuePos := pos + 1 }, .running (.readValue pos))
    else (ring, .running (.loadSequence ring.dequeuePos))
  | .readValue pos => (ring, .running (.storeSequence pos (ring.slot pos).value))
  | .storeSequence pos out => (ring.storeSequence pos (pos + C.value), .returned (some out))

/-- `try_push` alone on the ring, for at most `fuel` accesses; `none` means it
has not returned by then. Its first `spurious` compare-exchanges fail
spuriously. -/
def runPush (value : T) : (fuel spurious : ℕ) → MpmcRing T C → PushPoint →
    Option (Bool × MpmcRing T C)
  | 0, _, _, _ => none
  | fuel + 1, spurious, ring, point =>
    match ring.pushStep value (0 < spurious) point with
    | (ring', .running point') => runPush value fuel (spurious - point.exchanges) ring' point'
    | (ring', .returned accepted) => some (accepted, ring')

/-- `try_pop` alone on the ring. -/
def runPop : (fuel spurious : ℕ) → MpmcRing T C → PopPoint T →
    Option (Option T × MpmcRing T C)
  | 0, _, _, _ => none
  | fuel + 1, spurious, ring, point =>
    match ring.popStep (0 < spurious) point with
    | (ring', .running point') => runPop fuel (spurious - point.exchanges) ring' point'
    | (ring', .returned out) => some (out, ring')

/-- A whole call of either member function. -/
def call (ring : MpmcRing T C) (fuel spurious : ℕ) : Request T → Option (Reply T × MpmcRing T C)
  | .push value => (runPush value fuel spurious ring .loadPos).map fun done =>
    (.pushed done.1, done.2)
  | .pop => (runPop fuel spurious ring .loadPos).map fun done => (.popped done.1, done.2)

/-- Calls one after another, each with its number of spurious failures. -/
def session (ring : MpmcRing T C) (fuel : ℕ) :
    List (Request T × ℕ) → Option (List (Reply T) × MpmcRing T C)
  | [] => some ([], ring)
  | (request, spurious) :: rest =>
    (ring.call fuel spurious request).bind fun (reply, ring') =>
      (session ring' fuel rest).map fun (replies, last) => (reply :: replies, last)

/-- The distance between the cursors: tickets pushed and not yet popped. -/
def count (ring : MpmcRing T C) : ℕ := (ring.enqueuePos - ring.dequeuePos).toNat

/-- The values in the slots between the cursors, oldest first. -/
def held (ring : MpmcRing T C) : List T :=
  C.window (fun i => (ring.slots i).value) ring.dequeuePos ring.count

@[simp] theorem length_held (ring : MpmcRing T C) : ring.held.length = ring.count :=
  C.length_window _ _ _

end MpmcRing
end Ringio
