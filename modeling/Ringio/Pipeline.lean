import Ringio.SqpollEngine

/-! The whole way of a request: client, submit ring, `drain_and_submit`,
submission ring, kernel, completion ring of the kernel, `harvest_completions`,
completion queue, client. The parties take turns one step at a time; the kernel
completes what it has consumed in any order, one entry each. -/
namespace Ringio.Pipeline
open BoundedFifo SqpollEngine

/-- What is in each stage, the calls in progress with their batch limits, and a
record of what went in, what the kernel posted, what came out, and what the two
calls let go of. -/
structure Stages (Q : Queue IoRequest) (R : Queue IoCompletion) (entries : ℕ) where
  submitRing : Q.State
  sq : BoundedSq entries
  inFlight : List Sqe
  cq : List Cqe
  completionRing : R.State
  drain : Option (ℕ × DrainPoint)
  harvest : Option (ℕ × HarvestPoint)
  accepted : List IoRequest
  posted : List Cqe
  popped : List IoCompletion
  lost : List IoRequest
  dropped : List IoCompletion

/-- The client pushes or pops, the engine's thread starts a call or goes on with
it, the kernel consumes an entry or completes one of those it has consumed. -/
inductive Command where
  | push (req : IoRequest)
  | pop
  | drain (maxBatch : ℕ)
  | runDrain
  | consume
  | complete (position : ℕ) (res : Int32)
  | harvest (maxBatch : ℕ)
  | runHarvest

/-- The request a drain call has taken out of the queue and not yet placed. -/
def drainHand : Option (ℕ × DrainPoint) → List IoRequest
  | some (_, .reserve _ req) => [req]
  | _ => []

/-- The completion a harvest call has made and not yet pushed. -/
def harvestHand : Option (ℕ × HarvestPoint) → List IoCompletion
  | some (_, .deliver _ _ completion) => [completion]
  | _ => []

/-- The entries a harvest call has read so far. -/
def entriesRead : Option (ℕ × HarvestPoint) → ℕ
  | some (_, .test walked _) | some (_, .advance walked _) => walked
  | some (_, .deliver walked _ _) => walked + 1
  | none => 0

section
variable {Q : Queue IoRequest} {R : Queue IoCompletion} {entries : ℕ}

/-- A call that has not returned goes on from the point it is at. -/
def onward {Point Result : Type} (maxBatch : ℕ) : Progress Point Result → Option (ℕ × Point)
  | .running point => some (maxBatch, point)
  | .returned _ => none

/-- The request the reservation step lets go of: the one it finds no entry for. -/
def missed (pool : BufferPool) (sq : BoundedSq entries) : DrainPoint → List IoRequest
  | .reserve _ req => if (boundedSq entries).fill sq (translate pool req) = none then [req] else []
  | _ => []

/-- The completion the delivery step lets go of: the one the queue refuses. -/
def refused (out : R.State) : HarvestPoint → List IoCompletion
  | .deliver _ _ completion => if (R.tryPush out completion).1 then [] else [completion]
  | _ => []

variable (pool : BufferPool) (cqEntries : UInt32)

/-- One step of one party. The kernel posts an entry when its ring has room. -/
def Stages.next (s : Stages Q R entries) : Command → Option (Stages Q R entries)
  | .push req =>
    let pushed := Q.tryPush s.submitRing req
    some { s with
      submitRing := pushed.2
      accepted := if pushed.1 then s.accepted ++ [req] else s.accepted }
  | .pop =>
    let out := R.tryPop s.completionRing
    some { s with completionRing := out.2, popped := s.popped ++ out.1.toList }
  | .drain maxBatch =>
    match s.drain with
    | none => some { s with drain := some (maxBatch, .test 0) }
    | some _ => none
  | .runDrain =>
    match s.drain with
    | none => none
    | some (maxBatch, point) =>
      let step := drainStep Q (boundedSq entries) pool maxBatch s.submitRing s.sq point
      some { s with
        submitRing := step.1.1
        sq := step.1.2
        drain := onward maxBatch step.2
        lost := s.lost ++ missed pool s.sq point }
  | .consume =>
    match split : s.sq.published with
    | [] => none
    | sqe :: rest =>
      some { s with
        sq := ⟨rest, s.sq.pending, by
          have fits := s.sq.fits
          rw [split] at fits
          exact Nat.le_of_succ_le fits⟩
        inFlight := s.inFlight ++ [sqe] }
  | .complete position res =>
    match s.inFlight[position]? with
    | none => none
    | some sqe =>
      if s.cq.length < cqEntries.toNat then
        some { s with
          inFlight := s.inFlight.eraseIdx position
          cq := s.cq ++ [⟨sqe.userData, res⟩]
          posted := s.posted ++ [⟨sqe.userData, res⟩] }
      else none
  | .harvest maxBatch =>
    match s.harvest with
    | none => some { s with harvest := some (maxBatch, .test 0 0) }
    | some _ => none
  | .runHarvest =>
    match s.harvest with
    | none => none
    | some (maxBatch, point) =>
      let step := harvestStep R maxBatch s.completionRing s.cq point
      some { s with
        completionRing := step.1.1
        cq := step.1.2
        harvest := onward maxBatch step.2
        dropped := s.dropped ++ refused s.completionRing point }

/-! ## What one step can do -/

/-- Every step: the client pushes or pops, a call starts or goes on, the kernel
takes the oldest entry or posts for one it has taken. -/
inductive Moved (s : Stages Q R entries) : Command → Stages Q R entries → Prop where
  | push (req : IoRequest) : Moved s (.push req) { s with
      submitRing := (Q.tryPush s.submitRing req).2
      accepted := if (Q.tryPush s.submitRing req).1 then s.accepted ++ [req] else s.accepted }
  | pop : Moved s .pop { s with
      completionRing := (R.tryPop s.completionRing).2
      popped := s.popped ++ (R.tryPop s.completionRing).1.toList }
  | drain (maxBatch : ℕ) (idle : s.drain = none) :
      Moved s (.drain maxBatch) { s with drain := some (maxBatch, .test 0) }
  | runDrain {maxBatch : ℕ} {point : DrainPoint} {step} (inside : s.drain = some (maxBatch, point))
      (ran : drainStep Q (boundedSq entries) pool maxBatch s.submitRing s.sq point = step) :
      Moved s .runDrain { s with
        submitRing := step.1.1, sq := step.1.2, drain := onward maxBatch step.2
        lost := s.lost ++ missed pool s.sq point }
  | consume {sqe : Sqe} {rest : List Sqe} (taken : s.sq.published = sqe :: rest)
      (fits : (rest ++ s.sq.pending).length ≤ entries) :
      Moved s .consume { s with
        sq := ⟨rest, s.sq.pending, fits⟩, inFlight := s.inFlight ++ [sqe] }
  | complete {position : ℕ} {sqe : Sqe} (res : Int32) (found : s.inFlight[position]? = some sqe)
      (room : s.cq.length < cqEntries.toNat) :
      Moved s (.complete position res) { s with
        inFlight := s.inFlight.eraseIdx position
        cq := s.cq ++ [⟨sqe.userData, res⟩]
        posted := s.posted ++ [⟨sqe.userData, res⟩] }
  | harvest (maxBatch : ℕ) (idle : s.harvest = none) :
      Moved s (.harvest maxBatch) { s with harvest := some (maxBatch, .test 0 0) }
  | runHarvest {maxBatch : ℕ} {point : HarvestPoint} {step}
      (inside : s.harvest = some (maxBatch, point))
      (ran : harvestStep R maxBatch s.completionRing s.cq point = step) :
      Moved s .runHarvest { s with
        completionRing := step.1.1, cq := step.1.2, harvest := onward maxBatch step.2
        dropped := s.dropped ++ refused s.completionRing point }

variable {pool cqEntries} in
/-- Every step is one of these. -/
theorem moved_of_next {s s' : Stages Q R entries} {command : Command}
    (moved : s.next pool cqEntries command = some s') : Moved pool cqEntries s command s' := by
  cases command with
  | push req =>
    cases moved
    exact .push req
  | pop =>
    cases moved
    exact .pop
  | drain maxBatch =>
    simp only [Stages.next] at moved
    split at moved
    · rename_i idle
      cases moved
      exact .drain maxBatch idle
    · cases moved
  | runDrain =>
    simp only [Stages.next] at moved
    split at moved
    · cases moved
    · rename_i inside
      cases moved
      exact .runDrain inside rfl
  | consume =>
    simp only [Stages.next] at moved
    split at moved
    · cases moved
    · rename_i sqe rest taken
      cases moved
      exact .consume taken _
  | complete position res =>
    simp only [Stages.next] at moved
    split at moved
    · cases moved
    · rename_i sqe found
      split at moved
      · rename_i room
        cases moved
        exact .complete res found room
      · cases moved
  | harvest maxBatch =>
    simp only [Stages.next] at moved
    split at moved
    · rename_i idle
      cases moved
      exact .harvest maxBatch idle
    · cases moved
  | runHarvest =>
    simp only [Stages.next] at moved
    split at moved
    · cases moved
    · rename_i inside
      cases moved
      exact .runHarvest inside rfl

end

/-- Everything empty, no call in progress. -/
def machine (Q : Queue IoRequest) (R : Queue IoCompletion) (entries : ℕ) (pool : BufferPool)
    (cqEntries : UInt32) : Machine (Stages Q R entries) Command where
  start := ⟨Q.new, ⟨[], [], Nat.zero_le _⟩, [], [], R.new, none, none, [], [], [], [], []⟩
  next := Stages.next pool cqEntries

end Ringio.Pipeline
