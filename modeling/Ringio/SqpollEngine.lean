import Ringio.BoundedFifo
import Ringio.Machine

/-! `SqpollEngine` (`sqpoll_engine.hpp`): requests become submission entries in
`drain_and_submit`, completion entries become completions in
`harvest_completions`. Both are loops over two queues that other parties use at
the same time, so each is a step function on its program point. The engine
works on any queue with `try_pop` or `try_push`, and on liburing through the few
calls named here. -/
namespace Ringio
open BoundedFifo

/-- `IoOp`. -/
inductive IoOp where
  | read
  | write
  deriving DecidableEq

/-- `IoRequest`. -/
structure IoRequest where
  op : IoOp
  fixedFdIndex : Int32
  bufferIndex : UInt32
  offset : UInt64
  length : UInt32
  token : UInt64
  deriving DecidableEq

/-- The member initialisers of `IoRequest`. -/
instance : Inhabited IoRequest := ⟨⟨.read, -1, 0, 0, 0, 0⟩⟩

/-- `IoCompletion`. -/
structure IoCompletion where
  token : UInt64
  result : Int32
  deriving DecidableEq

instance : Inhabited IoCompletion := ⟨⟨0, 0⟩⟩

/-- The fields of `io_uring_sqe` that the engine sets; the opcode is the fixed
buffer form of the operation. -/
structure Sqe where
  opcode : IoOp
  flags : UInt8
  fd : Int32
  addr : UInt64
  len : UInt32
  off : UInt64
  bufIndex : UInt16
  userData : UInt64
  deriving DecidableEq

/-- The fields of `io_uring_cqe` that the engine reads. -/
structure Cqe where
  userData : UInt64
  res : Int32
  deriving DecidableEq

/-- The part of `BufferPool` that `data` reads. -/
structure BufferPool where
  base : UInt64
  bufferSize : UInt64

/-- `BufferPool::data`. -/
def BufferPool.data (pool : BufferPool) (index : UInt32) : UInt64 :=
  pool.base + index.toUInt64 * pool.bufferSize

/-- `IOSQE_FIXED_FILE`. -/
def fixedFileFlag : UInt8 := 1

/-- The entry `drain_and_submit` fills for a request. The `prep` calls store
their arguments, the buffer index in 16 bits; `user_data` is the token. -/
def translate (pool : BufferPool) (req : IoRequest) : Sqe where
  opcode := req.op
  flags := 0 ||| fixedFileFlag
  fd := req.fixedFdIndex
  addr := pool.data req.bufferIndex
  len := req.length
  off := req.offset
  bufIndex := req.bufferIndex.toUInt16
  userData := req.token

/-- The completion `harvest_completions` makes of an entry. -/
def Cqe.toCompletion (cqe : Cqe) : IoCompletion := ⟨cqe.userData, cqe.res⟩

/-- What the engine relies on of liburing's submission ring. `fill` is
`io_uring_get_sqe` and the stores into the entry it returns: it has none to
return exactly when the ring has no free entry. `submit` is `io_uring_submit`,
which hands what has been filled to the kernel. -/
structure SubmissionRing where
  State : Type
  sqes : State → List Sqe
  free : State → ℕ
  fill : State → Sqe → Option State
  submit : State → State
  fill_none : ∀ state sqe, fill state sqe = none ↔ free state = 0
  fill_some : ∀ state sqe state', fill state sqe = some state' →
    free state = free state' + 1 ∧ sqes state' = sqes state ++ [sqe]
  submit_sqes : ∀ state, sqes (submit state) = sqes state
  submit_free : ∀ state, free (submit state) = free state

namespace SqpollEngine

/-- Program points of `drain_and_submit`: the loop condition, the reservation for
a request that has been popped, the submission at the end. -/
inductive DrainPoint where
  | test (submitted : ℕ)
  | reserve (submitted : ℕ) (req : IoRequest)
  | submit (submitted : ℕ)

/-- Program points of `harvest_completions`: the loop condition and the load of
an entry, the push of its completion, the release of what was walked. -/
inductive HarvestPoint where
  | test (walked delivered : ℕ)
  | deliver (walked delivered : ℕ) (completion : IoCompletion)
  | advance (walked delivered : ℕ)

section
variable (Q : Queue IoRequest) (U : SubmissionRing) (pool : BufferPool) (maxBatch : ℕ)

/-- One step of `drain_and_submit`. -/
def drainStep (queue : Q.State) (ring : U.State) :
    DrainPoint → (Q.State × U.State) × Progress DrainPoint ℕ
  | .test submitted =>
    if submitted < maxBatch then
      match Q.tryPop queue with
      | (some req, queue') => ((queue', ring), .running (.reserve submitted req))
      | (none, queue') => ((queue', ring), .running (.submit submitted))
    else ((queue, ring), .running (.submit submitted))
  | .reserve submitted req =>
    match U.fill ring (translate pool req) with
    | none => ((queue, ring), .running (.submit submitted))
    | some ring' => ((queue, ring'), .running (.test (submitted + 1)))
  | .submit submitted =>
    ((queue, if 0 < submitted then U.submit ring else ring), .returned submitted)

variable {Q U maxBatch} {queue : Q.State} {submitted : ℕ} {req : IoRequest} {rest : List IoRequest}

/-- The loop condition pops the oldest request while the batch lasts. -/
theorem drainStep_pop (ring : U.State) (more : submitted < maxBatch)
    (contents : Q.held queue = req :: rest) :
    ∃ queue', drainStep Q U pool maxBatch queue ring (.test submitted) =
        ((queue', ring), .running (.reserve submitted req)) ∧ Q.held queue' = rest := by
  obtain ⟨popped, left⟩ := Q.pop_cons contents
  have whole : Q.tryPop queue = (some req, (Q.tryPop queue).2) := Prod.ext popped rfl
  exact ⟨_, by rw [drainStep, if_pos more, whole], left⟩

/-- It fails when the batch is full or the queue is empty. -/
theorem drainStep_stop (ring : U.State) (ended : maxBatch ≤ submitted ∨ Q.held queue = []) :
    ∃ queue', drainStep Q U pool maxBatch queue ring (.test submitted) =
        ((queue', ring), .running (.submit submitted)) ∧ Q.held queue' = Q.held queue := by
  by_cases more : submitted < maxBatch
  · have empty := ended.resolve_left (Nat.not_le.mpr more)
    obtain ⟨none, left⟩ := Q.pop_nil empty
    have whole : Q.tryPop queue = (.none, (Q.tryPop queue).2) := Prod.ext none rfl
    exact ⟨_, by rw [drainStep, if_pos more, whole], left.trans empty.symm⟩
  · exact ⟨queue, by rw [drainStep, if_neg more], rfl⟩

/-- The submission keeps the entries and returns their number. -/
theorem drainStep_submit (maxBatch : ℕ) (queue : Q.State) (ring : U.State) (submitted : ℕ) :
    ∃ ring', drainStep Q U pool maxBatch queue ring (.submit submitted) =
        ((queue, ring'), .returned submitted) ∧ U.sqes ring' = U.sqes ring := by
  refine ⟨_, rfl, ?_⟩
  split
  · exact U.submit_sqes ring
  · rfl

/-- How far from its end a call at this point can be. -/
def drainRank (maxBatch : ℕ) : DrainPoint → ℕ
  | .test submitted => 2 * (maxBatch - submitted) + 1
  | .reserve submitted _ => 2 * (maxBatch - (submitted + 1)) + 2
  | .submit _ => 0

/-- Every step of a call that goes on brings it closer. -/
theorem drainStep_rank {pool : BufferPool} {ring : U.State} {point point' : DrainPoint}
    (running : (drainStep Q U pool maxBatch queue ring point).2 = .running point') :
    drainRank maxBatch point' < drainRank maxBatch point := by
  cases point with
  | test submitted =>
    simp only [drainStep] at running
    split at running
    · split at running
      · cases running
        simp only [drainRank]
        omega
      · cases running
        exact Nat.succ_pos _
    · cases running
      exact Nat.succ_pos _
  | reserve submitted req =>
    simp only [drainStep] at running
    split at running
    · cases running
      exact Nat.succ_pos _
    · cases running
      exact Nat.lt_succ_self _
  | submit submitted => cases running

variable (Q U maxBatch)

/-- `drain_and_submit` for at most `fuel` steps. -/
def drain : (fuel : ℕ) → Q.State → U.State → DrainPoint → Option (ℕ × Q.State × U.State)
  | 0, _, _, _ => none
  | fuel + 1, queue, ring, point =>
    match drainStep Q U pool maxBatch queue ring point with
    | ((queue', ring'), .running point') => drain fuel queue' ring' point'
    | ((queue', ring'), .returned submitted) => some (submitted, queue', ring')

/-- A whole call. Two steps an iteration and three to finish are enough. -/
def drainAndSubmit (queue : Q.State) (ring : U.State) : Option (ℕ × Q.State × U.State) :=
  drain Q U pool maxBatch (2 * maxBatch + 3) queue ring (.test 0)

end

/-- One step of `harvest_completions`, on the entries from the ring's head on.
The tail is read anew for each entry, and the batch limit is tested after. The
head moves by the number walked as a 32-bit value. -/
def harvestStep (R : Queue IoCompletion) (maxBatch : ℕ) (out : R.State) (cq : List Cqe) :
    HarvestPoint → (R.State × List Cqe) × Progress HarvestPoint ℕ
  | .test walked delivered =>
    match cq[walked]? with
    | none => ((out, cq), .running (.advance walked delivered))
    | some cqe =>
      if maxBatch ≤ walked then ((out, cq), .running (.advance walked delivered))
      else ((out, cq), .running (.deliver walked delivered cqe.toCompletion))
  | .deliver walked delivered completion =>
    match R.tryPush out completion with
    | (true, out') => ((out', cq), .running (.test (walked + 1) (delivered + 1)))
    | (false, out') => ((out', cq), .running (.test (walked + 1) delivered))
  | .advance walked delivered =>
    ((out, if 0 < walked then cq.drop (UInt32.ofNat walked).toNat else cq), .returned delivered)

end SqpollEngine

/-- A submission ring of so many entries: those handed to the kernel and those
filled since. -/
structure BoundedSq (entries : ℕ) where
  published : List Sqe
  pending : List Sqe
  fits : (published ++ pending).length ≤ entries

/-- The ring keeps the documented behaviour. -/
def boundedSq (entries : ℕ) : SubmissionRing where
  State := BoundedSq entries
  sqes state := state.published ++ state.pending
  free state := entries - (state.published ++ state.pending).length
  fill state sqe :=
    if room : (state.published ++ state.pending).length < entries then
      some ⟨state.published, state.pending ++ [sqe],
        by rw [← List.append_assoc, List.length_append]; exact room⟩
    else none
  submit state := ⟨state.published ++ state.pending, [], by simpa using state.fits⟩
  fill_none state sqe := by
    split
    · simp only [reduceCtorEq, false_iff]
      omega
    · simp only [true_iff]
      omega
  fill_some state sqe state' filled := by
    split at filled
    · rename_i room
      cases filled
      refine ⟨?_, (List.append_assoc ..).symm⟩
      simp only [List.length_append, List.length_singleton] at room ⊢
      omega
    · cases filled
  submit_sqes state := List.append_nil _
  submit_free state := by rw [List.append_nil]

end Ringio
