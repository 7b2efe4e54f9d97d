import Mathlib.Logic.Function.Basic
import Ringio.Pipeline
import Ringio.SpscRing

/-! The pipelined loop of `BM_SqpollIops` and of each worker of
`BM_SqpollSharedPollerIops` (`iops_throughput_benchmark.cpp`). One thread owns
both rings and makes both engine calls; the kernel moves between any two of its
steps. What is only counted or printed is left out. -/
namespace Ringio.Benchmark
open BoundedFifo
open Pipeline (Stages)

/-- `kBlockSize`. -/
def kBlockSize : UInt32 := 4096

/-- `kRingEntries`. -/
def kRingEntries : ℕ := 256

/-- The second template argument of both rings. -/
def ringCapacity : Capacity := ⟨128, by decide, by decide⟩

/-- `submit_queue`. -/
def submitQueue : Queue IoRequest := SpscRing.fifo IoRequest ringCapacity

/-- `completions`. -/
def completions : Queue IoCompletion := SpscRing.fifo IoCompletion ringCapacity

/-- Program points of the loop: the `state` loop's condition, the pushes that
open a burst, inside `drain_and_submit`, the deadline test, inside
`harvest_completions`, the inner loop's condition, its body for a completion,
and the test of `refilled` after it. -/
inductive Point where
  | state
  | fill (i : ℕ)
  | draining
  | deadline
  | harvesting
  | pops (refilled : ℕ)
  | refill (refilled : ℕ) (completion : IoCompletion)
  | after (refilled : ℕ)

/-- The pipeline's stages, the thread's point and its variables, and a record of
every request it has handed to `try_push`. A time in `submittedAt` is known by
the position of its push in that record. -/
structure Worker where
  stages : Stages submitQueue completions kRingEntries
  point : Point
  begun : ℕ
  writeTurn : Bool
  submittedAt : UInt32 → ℕ
  attempts : List IoRequest

/-- The thread takes its next step, with what the clock says about the deadline
and the next random offset, or the kernel takes one. -/
inductive Command where
  | run (expired : Bool) (offset : UInt64)
  | consume
  | complete (position : ℕ) (res : Int32)

/-- `make_request`; the caller flips `write_turn`. -/
def makeRequest (writeTurn : Bool) (offset : UInt64) (bufIndex : UInt32) : IoRequest where
  op := if writeTurn then .write else .read
  fixedFdIndex := 0
  bufferIndex := bufIndex
  offset := offset
  length := kBlockSize
  token := bufIndex.toUInt64

/-- The slot of a completion, `static_cast<std::uint32_t>(completion.token)`. -/
def slotOf (completion : IoCompletion) : UInt32 := completion.token.toUInt32

namespace Worker
variable (queueDepth : ℕ) (slotBuf : List UInt32) (bursts : ℕ) (pool : BufferPool)
  (cqEntries : UInt32)

/-- The stages take a step and the thread goes on from another point. -/
def move (s : Worker) (command : Pipeline.Command)
    (point : Stages submitQueue completions kRingEntries → Point) : Option Worker :=
  (s.stages.next pool cqEntries command).map fun stages =>
    { s with stages, point := point stages }

/-- After a push for the slot: the turn is flipped and the slot's time is set. -/
def pushed (s : Worker) (slot : UInt32) (offset : UInt64)
    (stages : Stages submitQueue completions kRingEntries) (point : Point) : Worker where
  stages := stages
  point := point
  begun := s.begun
  writeTurn := !s.writeTurn
  submittedAt := Function.update s.submittedAt slot s.attempts.length
  attempts := s.attempts ++ [makeRequest s.writeTurn offset slot]

/-- A request for the slot is made and pushed, whatever `try_push` answers. -/
def push (s : Worker) (slot : UInt32) (offset : UInt64) (point : Point) : Option Worker :=
  (s.stages.next pool cqEntries (.push (makeRequest s.writeTurn offset slot))).map fun stages =>
    s.pushed slot offset stages point

/-- One step of the thread. `slot_buf` has `queue_depth` entries. -/
def run (s : Worker) (expired : Bool) (offset : UInt64) : Option Worker :=
  match s.point with
  | .state =>
    if s.begun < bursts then some { s with begun := s.begun + 1, point := .fill 0 } else none
  | .fill i =>
    match slotBuf[i]? with
    | some slot => s.push pool cqEntries slot offset (.fill (i + 1))
    | none => s.move pool cqEntries (.drain queueDepth) fun _ => .draining
  | .draining =>
    s.move pool cqEntries .runDrain fun stages =>
      if stages.drain.isNone then .deadline else .draining
  | .deadline =>
    if expired then some { s with point := .state }
    else s.move pool cqEntries (.harvest queueDepth) fun _ => .harvesting
  | .harvesting =>
    s.move pool cqEntries .runHarvest fun stages =>
      if stages.harvest.isNone then .pops 0 else .harvesting
  | .pops refilled =>
    s.move pool cqEntries .pop fun _ =>
      match (completions.tryPop s.stages.completionRing).1 with
      | some completion => .refill refilled completion
      | none => .after refilled
  | .refill refilled completion =>
    s.push pool cqEntries (slotOf completion) offset (.pops (refilled + 1))
  | .after refilled =>
    if 0 < refilled then s.move pool cqEntries (.drain queueDepth) fun _ => .draining
    else some { s with point := .deadline }

/-- One step of the thread or of the kernel. -/
def next (s : Worker) : Command → Option Worker
  | .run expired offset => s.run queueDepth slotBuf bursts pool cqEntries expired offset
  | .consume => s.move pool cqEntries .consume fun _ => s.point
  | .complete position res => s.move pool cqEntries (.complete position res) fun _ => s.point

end Worker

/-! ## What one step can do -/

section
variable {queueDepth : ℕ} {slotBuf : List UInt32} {bursts : ℕ} {pool : BufferPool}
  {cqEntries : UInt32} {s s' : Worker}

/-- The pushes of the loop: the slot, and where the thread is afterwards. -/
inductive Pushes (slotBuf : List UInt32) : Point → UInt32 → Point → Prop where
  | fill {i : ℕ} {slot : UInt32} (entry : slotBuf[i]? = some slot) :
      Pushes slotBuf (.fill i) slot (.fill (i + 1))
  | refill (refilled : ℕ) (completion : IoCompletion) :
      Pushes slotBuf (.refill refilled completion) (slotOf completion) (.pops (refilled + 1))

theorem Pushes.starts {origin point : Point} {slot : UInt32}
    (pushes : Pushes slotBuf origin slot point) : origin ≠ .state := by
  cases pushes <;> simp

theorem Pushes.ends {origin point : Point} {slot : UInt32}
    (pushes : Pushes slotBuf origin slot point) (refilled : ℕ) (completion : IoCompletion) :
    point ≠ .refill refilled completion := by
  cases pushes <;> simp

/-- Where the thread can be after a step, its own or the kernel's, that neither
begins a burst nor pushes nor takes a completion. -/
inductive Turns (slotBuf : List UInt32) : Point → Point → Prop where
  | stay (point : Point) : Turns slotBuf point point
  | filled {i : ℕ} (last : slotBuf[i]? = none) : Turns slotBuf (.fill i) .draining
  | drained : Turns slotBuf .draining .deadline
  | expired : Turns slotBuf .deadline .state
  | harvest : Turns slotBuf .deadline .harvesting
  | harvested : Turns slotBuf .harvesting (.pops 0)
  | emptied (refilled : ℕ) : Turns slotBuf (.pops refilled) (.after refilled)
  | again (refilled : ℕ) : Turns slotBuf (.after refilled) .draining
  | idle (refilled : ℕ) : Turns slotBuf (.after refilled) .deadline

theorem Turns.starts {origin point : Point} (turns : Turns slotBuf origin point)
    (outside : origin = .state) : point = .state := by
  cases turns <;> cases outside
  rfl

theorem Turns.ends {origin point : Point} (turns : Turns slotBuf origin point) {refilled : ℕ}
    {completion : IoCompletion} (inside : point = .refill refilled completion) :
    origin = .refill refilled completion := by
  cases turns <;> cases inside
  rfl

/-- The stages are left alone or take a step other than a push, with nothing
accepted and nothing popped. -/
structure Undisturbed (pool : BufferPool) (cqEntries : UInt32)
    (before after : Stages submitQueue completions kRingEntries) : Prop where
  moved : after = before ∨ ∃ command, (∀ req, command ≠ .push req) ∧
    before.next pool cqEntries command = some after
  accepted : after.accepted = before.accepted
  popped : after.popped = before.popped

/-- Every step: a burst begins, a request is pushed, a completion is popped, or
the thread and the stages move without any of these. -/
inductive Moved (slotBuf : List UInt32) (bursts : ℕ) (pool : BufferPool) (cqEntries : UInt32)
    (s : Worker) : Worker → Prop where
  | begin (outside : s.point = .state) (more : s.begun < bursts) :
      Moved slotBuf bursts pool cqEntries s { s with begun := s.begun + 1, point := .fill 0 }
  | push {slot : UInt32} {point : Point} {stages} (offset : UInt64)
      (pushes : Pushes slotBuf s.point slot point)
      (moved : s.stages.next pool cqEntries (.push (makeRequest s.writeTurn offset slot)) =
        some stages) :
      Moved slotBuf bursts pool cqEntries s (s.pushed slot offset stages point)
  | pop {refilled : ℕ} {completion : IoCompletion} {stages} (inside : s.point = .pops refilled)
      (taken : (completions.tryPop s.stages.completionRing).1 = some completion)
      (moved : s.stages.next pool cqEntries .pop = some stages) :
      Moved slotBuf bursts pool cqEntries s
        { s with stages, point := .refill refilled completion }
  | turn {point : Point} {stages} (turns : Turns slotBuf s.point point)
      (undisturbed : Undisturbed pool cqEntries s.stages stages) :
      Moved slotBuf bursts pool cqEntries s { s with stages, point }

/-- Apart from pushes and pops, no step of the stages accepts or pops anything. -/
private theorem undisturbed_of_next {command : Pipeline.Command}
    {before after : Stages submitQueue completions kRingEntries}
    (noPush : ∀ req, command ≠ .push req) (noPop : command ≠ .pop)
    (moved : before.next pool cqEntries command = some after) :
    Undisturbed pool cqEntries before after := by
  refine ⟨.inr ⟨command, noPush, moved⟩, ?_, ?_⟩
  · cases Pipeline.moved_of_next moved with
    | push req => exact absurd rfl (noPush req)
    | pop | drain | runDrain | consume | complete | harvest | runHarvest => rfl
  · cases Pipeline.moved_of_next moved with
    | pop => exact absurd rfl noPop
    | push | drain | runDrain | consume | complete | harvest | runHarvest => rfl

private theorem move_eq_some {command : Pipeline.Command}
    {point : Stages submitQueue completions kRingEntries → Point}
    (moved : s.move pool cqEntries command point = some s') :
    ∃ stages, s.stages.next pool cqEntries command = some stages ∧
      s' = { s with stages, point := point stages } := by
  obtain ⟨stages, ran, rfl⟩ := Option.map_eq_some_iff.mp moved
  exact ⟨stages, ran, rfl⟩

private theorem turn_of_move {command : Pipeline.Command}
    {point : Stages submitQueue completions kRingEntries → Point}
    (noPush : ∀ req, command ≠ .push req) (noPop : command ≠ .pop)
    (turns : ∀ stages, Turns slotBuf s.point (point stages))
    (moved : s.move pool cqEntries command point = some s') :
    Moved slotBuf bursts pool cqEntries s s' := by
  obtain ⟨stages, ran, rfl⟩ := move_eq_some moved
  exact .turn (turns stages) (undisturbed_of_next noPush noPop ran)

private theorem push_of_push {slot : UInt32} {offset : UInt64} {point : Point}
    (pushes : Pushes slotBuf s.point slot point)
    (moved : s.push pool cqEntries slot offset point = some s') :
    Moved slotBuf bursts pool cqEntries s s' := by
  obtain ⟨stages, ran, rfl⟩ := Option.map_eq_some_iff.mp moved
  exact .push offset pushes ran

private theorem pop_moved {refilled : ℕ} (inside : s.point = .pops refilled)
    (moved : s.move pool cqEntries .pop (fun _ =>
      match (completions.tryPop s.stages.completionRing).1 with
      | some completion => .refill refilled completion
      | none => .after refilled) = some s') :
    Moved slotBuf bursts pool cqEntries s s' := by
  obtain ⟨stages, ran, rfl⟩ := move_eq_some moved
  cases taken : (completions.tryPop s.stages.completionRing).1 with
  | some completion => exact .pop inside taken ran
  | none =>
    refine .turn (inside ▸ .emptied refilled) ⟨.inr ⟨.pop, by simp, ran⟩, ?_, ?_⟩
    · cases ran
      rfl
    · cases ran
      simp [taken]

private theorem moved_of_run {expired : Bool} {offset : UInt64}
    (moved : s.run queueDepth slotBuf bursts pool cqEntries expired offset = some s') :
    Moved slotBuf bursts pool cqEntries s s' := by
  unfold Worker.run at moved
  split at moved
  case h_1 inside =>
    split at moved
    · rename_i more
      cases moved
      exact .begin inside more
    · cases moved
  case h_2 i inside =>
    split at moved
    · rename_i slot entry
      exact push_of_push (inside ▸ .fill entry) moved
    · rename_i last
      exact turn_of_move (by simp) (by simp) (fun _ => inside ▸ .filled last) moved
  case h_3 inside =>
    refine turn_of_move (by simp) (by simp) (fun stages => ?_) moved
    rw [inside]
    split
    · exact .drained
    · exact .stay _
  case h_4 inside =>
    split at moved
    · cases moved
      exact .turn (inside ▸ .expired) ⟨.inl rfl, rfl, rfl⟩
    · exact turn_of_move (by simp) (by simp) (fun _ => inside ▸ .harvest) moved
  case h_5 inside =>
    refine turn_of_move (by simp) (by simp) (fun stages => ?_) moved
    rw [inside]
    split
    · exact .harvested
    · exact .stay _
  case h_6 refilled inside => exact pop_moved inside moved
  case h_7 refilled completion inside => exact push_of_push (inside ▸ .refill ..) moved
  case h_8 refilled inside =>
    split at moved
    · exact turn_of_move (by simp) (by simp) (fun _ => inside ▸ .again refilled) moved
    · cases moved
      exact .turn (inside ▸ .idle refilled) ⟨.inl rfl, rfl, rfl⟩

/-- Every step is one of these. -/
theorem moved_of_next {command : Command}
    (moved : s.next queueDepth slotBuf bursts pool cqEntries command = some s') :
    Moved slotBuf bursts pool cqEntries s s' := by
  cases command with
  | run expired offset => exact moved_of_run moved
  | consume => exact turn_of_move (by simp) (by simp) (fun _ => .stay _) moved
  | complete position res => exact turn_of_move (by simp) (by simp) (fun _ => .stay _) moved

end

/-- Rings and engine empty, no burst begun. -/
def machine (queueDepth : ℕ) (slotBuf : List UInt32) (bursts : ℕ) (pool : BufferPool)
    (cqEntries : UInt32) : Machine Worker Command where
  start :=
    ⟨(Pipeline.machine submitQueue completions kRingEntries pool cqEntries).start, .state, 0, true,
      fun _ => 0, []⟩
  next := Worker.next queueDepth slotBuf bursts pool cqEntries

end Ringio.Benchmark
