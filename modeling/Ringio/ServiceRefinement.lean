import Ringio.FixedBufferIo
import Ringio.PipelineConservation

/-! What the whole way of a request is for: a service that moves bytes between the
buffers of a pool and the registered files, each submitted request at most once.
The pipeline, with the memory and files the kernel works on, refines it. -/
namespace Ringio.Service
open BoundedFifo SqpollEngine Pipeline ByteCopies

/-! ## The service -/

/-- The requests submitted: those not begun, oldest first, those begun with the
result of those carried out, those answered, those lost; and what the buffers and
files hold. -/
structure State where
  submitted : List IoRequest
  queued : List IoRequest
  serving : List (IoRequest × Option Int32)
  answered : List (IoRequest × Int32)
  lost : List IoRequest
  world : World Resource

/-- Requests are begun in order; they are carried out and answered in any. The
client may write to the buffers at any time. -/
inductive Action where
  | submit (req : IoRequest)
  | lose (position : ℕ)
  | begin
  | carryOut (position : ℕ) (outcome : Outcome)
  | answer (position : ℕ)
  | fill (index : UInt32) (start : ℕ) (values : List UInt8)

section
variable (files : List Int32) (bufferCount bufferSize : ℕ)

def State.next (a : State) : Action → Option State
  | .submit req =>
    some { a with submitted := a.submitted ++ [req], queued := a.queued ++ [req] }
  | .lose position =>
    match a.queued[position]? with
    | none => none
    | some req =>
      some { a with queued := a.queued.eraseIdx position, lost := a.lost ++ [req] }
  | .begin =>
    match a.queued with
    | [] => none
    | req :: rest => some { a with queued := rest, serving := a.serving ++ [(req, none)] }
  | .carryOut position outcome =>
    match a.serving[position]? with
    | some (req, none) =>
      (serve files bufferCount bufferSize a.world req outcome).map fun done =>
        { a with serving := a.serving.set position (req, some done.2), world := done.1 }
    | _ => none
  | .answer position =>
    match a.serving[position]? with
    | some (req, some result) =>
      some { a with
        serving := a.serving.eraseIdx position
        answered := a.answered ++ [(req, result)] }
    | _ => none
  | .fill index start values =>
    if index.toNat < bufferCount ∧ start + values.length ≤ bufferSize then
      some { a with world := { a.world with
        bytes := ByteCopies.fill a.world.bytes ⟨.buffer index.toNat, start⟩ values.length
          fun k => values.getD k 0 } }
    else none

/-- Nothing submitted, the buffers and files as given. -/
def machine (world : World Resource) : Machine State Action where
  start := ⟨[], [], [], [], [], world⟩
  next := State.next files bufferCount bufferSize

end

/-- The actions other than the client's own writes. -/
def byService (_ : State) (action : Action) (_ : State) : Prop :=
  match action with
  | .fill _ _ _ => False
  | _ => True

/-- Every request submitted is in one place. -/
def Conserved (a : State) : Prop :=
  tally id a.submitted =
    tally id a.queued + tally Prod.fst a.serving + tally Prod.fst a.answered + tally id a.lost

section
variable {files : List Int32} {bufferCount bufferSize : ℕ} {world : World Resource} {a a' : State}

/-- Replacing an element by one that reads the same. -/
theorem map_set_same {α β : Type} {f : α → β} {list : List α} {position : ℕ} {old new : α}
    (found : list[position]? = some old) (same : f new = f old) :
    (list.set position new).map f = list.map f := by
  obtain ⟨inside, rfl⟩ := List.getElem?_eq_some_iff.mp found
  have inside' : position < (list.map f).length := by rwa [List.length_map]
  rw [List.map_set, same, ← List.getElem_map f (h := inside'), List.set_getElem_self]

theorem conserved_step {action : Action} (conserved : Conserved a)
    (moved : a.next files bufferCount bufferSize action = some a') : Conserved a' := by
  unfold Conserved at conserved ⊢
  cases action with
  | submit req =>
    cases moved
    simp only [tally_append, conserved]
    abel
  | lose position =>
    simp only [State.next] at moved
    split at moved
    · cases moved
    · rename_i req found
      cases moved
      obtain ⟨inside, rfl⟩ := List.getElem?_eq_some_iff.mp found
      have split := tally_perm id (List.getElem_cons_eraseIdx_perm inside)
      rw [tally_cons] at split
      rw [conserved, ← split]
      simp only [tally_append, tally_cons, tally_nil]
      abel
  | begin =>
    simp only [State.next] at moved
    split at moved
    · cases moved
    · rename_i req rest contents
      cases moved
      rw [conserved, contents]
      simp only [tally_append, tally_cons, tally_nil, id_eq]
      abel
  | carryOut position outcome =>
    simp only [State.next] at moved
    split at moved
    · rename_i req found
      obtain ⟨done, -, rfl⟩ := Option.map_eq_some_iff.mp moved
      have unmoved : (a.serving.set position (req, some done.2)).map Prod.fst =
          a.serving.map Prod.fst := map_set_same found rfl
      rw [conserved]
      simp only [tally, unmoved]
    · cases moved
  | answer position =>
    simp only [State.next] at moved
    split at moved
    · rename_i req result found
      cases moved
      obtain ⟨inside, same⟩ := List.getElem?_eq_some_iff.mp found
      have split := tally_perm Prod.fst (List.getElem_cons_eraseIdx_perm inside)
      rw [tally_cons, same] at split
      rw [conserved, ← split]
      simp only [tally_append, tally_cons, tally_nil]
      abel
    · cases moved
  | fill index start values =>
    simp only [State.next] at moved
    split at moved
    · cases moved
      exact conserved
    · cases moved

theorem run_conserved (reached : (machine files bufferCount bufferSize world).Reachable
    Machine.anyStep a) : Conserved a :=
  reached.invariant (P := Conserved) (by simp [Conserved, machine])
    fun conserved moved _ => conserved_step conserved moved

end

/-! ## The pipeline with what it works on -/

/-- The stages, memory and files, and for each entry in flight its result once the
kernel has carried it out. -/
structure Plant (Q : Queue IoRequest) (R : Queue IoCompletion) (entries : ℕ) where
  stages : Stages Q R entries
  results : List (Option Int32)
  world : World Device

/-- A step of the stages, or the kernel carries out an entry in flight, or the
client writes to a buffer. -/
inductive Command where
  | stage (command : Pipeline.Command)
  | carryOut (position : ℕ) (outcome : Outcome)
  | fill (index : UInt32) (start : ℕ) (values : List UInt8)

section
variable {Q : Queue IoRequest} {R : Queue IoCompletion} {entries : ℕ} (pool : Pool)
  (cqEntries : UInt32) (files : List Int32) (iovecs : List Iovec)

/-- The kernel posts only the result of an entry it has carried out. -/
def permits (results : List (Option Int32)) : Pipeline.Command → Bool
  | .complete position res => results[position]? = some (some res)
  | _ => true

/-- Where the results are after a step of the stages. -/
def follow (results : List (Option Int32)) : Pipeline.Command → List (Option Int32)
  | .consume => results ++ [none]
  | .complete position _ => results.eraseIdx position
  | _ => results

def Plant.next (s : Plant Q R entries) : Command → Option (Plant Q R entries)
  | .stage command =>
    if permits s.results command then
      (s.stages.next pool.toBufferPool cqEntries command).map fun stages =>
        { s with stages := stages, results := follow s.results command }
    else none
  | .carryOut position outcome =>
    match s.stages.inFlight[position]?, s.results[position]? with
    | some sqe, some none =>
      (execute files iovecs s.world sqe outcome).map fun done =>
        { s with results := s.results.set position (some done.2), world := done.1 }
    | _, _ => none
  | .fill index start values =>
    if index.toNat < pool.bufferCount.toNat ∧
        start + values.length ≤ pool.bufferSize.toNat then
      some { s with world := { s.world with
        bytes := ByteCopies.fill s.world.bytes ⟨.memory, (pool.data index).toNat + start⟩
          values.length fun k => values.getD k 0 } }
    else none

/-- Everything empty, memory and files as given. -/
def plant (Q : Queue IoRequest) (R : Queue IoCompletion) (entries : ℕ) (world : World Device) :
    Machine (Plant Q R entries) Command where
  start := ⟨(Pipeline.machine Q R entries pool.toBufferPool cqEntries).start, [], world⟩
  next := Plant.next pool cqEntries files iovecs

end

/-! ## The refinement -/

section
variable {Q : Queue IoRequest} {R : Queue IoCompletion} {entries : ℕ} {pool : Pool}
  {cqEntries : UInt32} {files : List Int32} {iovecs : List Iovec} {s s' : Plant Q R entries}
  {a : State}

/-- A stage of the pipeline holds the requests the service has there: the entries
of the submission ring are the oldest of those queued, before the one in the hand
of a drain call and those in the submit ring. -/
structure Refines (installed : Installed pool iovecs) (s : Plant Q R entries) (a : State) :
    Prop where
  world : installed.Matches a.world s.world
  queued : ∃ filled, (boundedSq entries).sqes s.stages.sq =
      filled.map (translate pool.toBufferPool) ∧
    a.queued = filled ++ (drainHand s.stages.drain ++ Q.held s.stages.submitRing)
  inFlight : s.stages.inFlight = a.serving.map fun entry => translate pool.toBufferPool entry.1
  results : s.results = a.serving.map Prod.snd
  posted : s.stages.posted = a.answered.map fun entry => ⟨entry.1.token, entry.2⟩
  lost : s.stages.lost = a.lost
  accepted : s.stages.accepted = a.submitted

/-- The service for the buffers of a pool. -/
abbrev serviceOf (pool : Pool) (files : List Int32) (world : World Resource) :
    Machine State Action :=
  machine files pool.bufferCount.toNat pool.bufferSize.toNat world

variable {installed : Installed pool iovecs} {world : World Resource}

theorem reaches_one {bufferCount bufferSize : ℕ} {a a' : State} {action : Action}
    (moved : a.next files bufferCount bufferSize action = some a')
    (allowed : byService a action a') :
    (machine files bufferCount bufferSize world).Reaches byService a a' :=
  .single ⟨action, moved, allowed⟩

/-- A push that is accepted submits the request, one that is not does nothing. -/
theorem push_refines (refines : Refines installed s a) (req : IoRequest) :
    ∃ a', (serviceOf pool files world).Reaches byService a a' ∧
      Refines installed { s with stages := { s.stages with
        submitRing := (Q.tryPush s.stages.submitRing req).2
        accepted := if (Q.tryPush s.stages.submitRing req).1 then s.stages.accepted ++ [req]
          else s.stages.accepted } } a' := by
  obtain ⟨filled, entered, queued⟩ := refines.queued
  rcases Nat.lt_or_ge (Q.held s.stages.submitRing).length Q.capacity with room | full
  · obtain ⟨accepts, contents⟩ := Q.push_room req room
    have submits : a.next files pool.bufferCount.toNat pool.bufferSize.toNat (.submit req) =
        some { a with submitted := a.submitted ++ [req], queued := a.queued ++ [req] } := rfl
    refine ⟨_, reaches_one submits trivial, refines.world, ⟨filled, entered, ?_⟩, refines.inFlight,
      refines.results, refines.posted, refines.lost, ?_⟩
    · simp only [queued, contents, List.append_assoc]
    · simp only [accepts, if_true, refines.accepted]
  · obtain ⟨refuses, contents⟩ := Q.push_full req full
    refine ⟨a, .refl, refines.world, ⟨filled, entered, ?_⟩, refines.inFlight, refines.results,
      refines.posted, refines.lost, ?_⟩
    · simp only [queued, contents]
    · simp only [refuses, Bool.false_eq_true, if_false, refines.accepted]

/-- A step of a drain call moves a request on within the queue, or loses it. -/
theorem runDrain_refines (refines : Refines installed s a) {maxBatch : ℕ} {point : DrainPoint}
    (inside : s.stages.drain = some (maxBatch, point)) :
    let step := drainStep Q (boundedSq entries) pool.toBufferPool maxBatch s.stages.submitRing
      s.stages.sq point
    ∃ a', (serviceOf pool files world).Reaches byService a a' ∧
      Refines installed { s with stages := { s.stages with
        submitRing := step.1.1, sq := step.1.2, drain := onward maxBatch step.2
        lost := s.stages.lost ++ missed pool.toBufferPool s.stages.sq point } } a' := by
  obtain ⟨filled, entered, queued⟩ := refines.queued
  rw [inside] at queued
  cases point with
  | test submitted =>
    by_cases ended : maxBatch ≤ submitted ∨ Q.held s.stages.submitRing = []
    · obtain ⟨queue', step, left⟩ :=
        drainStep_stop (U := boundedSq entries) pool.toBufferPool s.stages.sq ended
      refine ⟨a, .refl, refines.world, ⟨filled, ?_, ?_⟩, refines.inFlight, refines.results,
        refines.posted, ?_, refines.accepted⟩
      · simp only [step, entered]
      · simp only [step, left, onward, queued, drainHand]
      · simp only [missed, List.append_nil, refines.lost]
    · rw [not_or, Nat.not_le] at ended
      obtain ⟨req, rest, contents⟩ := List.exists_cons_of_ne_nil ended.2
      obtain ⟨queue', step, left⟩ :=
        drainStep_pop (U := boundedSq entries) pool.toBufferPool s.stages.sq ended.1 contents
      refine ⟨a, .refl, refines.world, ⟨filled, ?_, ?_⟩, refines.inFlight, refines.results,
        refines.posted, ?_, refines.accepted⟩
      · simp only [step, entered]
      · simp only [step, left, onward, queued, drainHand, contents, List.nil_append,
          List.singleton_append]
      · simp only [missed, List.append_nil, refines.lost]
  | reserve submitted req =>
    simp only [drainStep, missed]
    cases found : (boundedSq entries).fill s.stages.sq (translate pool.toBufferPool req) with
    | none =>
      have place : a.queued[filled.length]? = some req := by
        simp [queued, drainHand]
      have gone : a.queued.eraseIdx filled.length = filled ++ Q.held s.stages.submitRing := by
        simp [queued, drainHand, List.eraseIdx_append_of_length_le]
      have loses : a.next files pool.bufferCount.toNat pool.bufferSize.toNat
          (.lose filled.length) = some { a with
            queued := a.queued.eraseIdx filled.length, lost := a.lost ++ [req] } := by
        simp only [State.next, place]
      refine ⟨_, reaches_one loses trivial, refines.world, ⟨filled, entered, gone⟩,
        refines.inFlight, refines.results, refines.posted, ?_, refines.accepted⟩
      simp only [if_true, refines.lost]
    | some sq' =>
      have appended := ((boundedSq entries).fill_some s.stages.sq _ sq' found).2
      refine ⟨a, .refl, refines.world, ⟨filled ++ [req], ?_, ?_⟩, refines.inFlight,
        refines.results, refines.posted, ?_, refines.accepted⟩
      · simp only [appended, entered, List.map_append, List.map_cons, List.map_nil]
      · simp only [queued, drainHand, onward, List.append_assoc, List.nil_append]
      · simp only [reduceCtorEq, if_false, List.append_nil, refines.lost]
  | submit submitted =>
    obtain ⟨sq', step, same⟩ := drainStep_submit (Q := Q) (U := boundedSq entries)
      pool.toBufferPool maxBatch s.stages.submitRing s.stages.sq submitted
    refine ⟨a, .refl, refines.world, ⟨filled, ?_, ?_⟩, refines.inFlight, refines.results,
      refines.posted, ?_, refines.accepted⟩
    · simp only [step, same, entered]
    · simp only [step, onward, queued, drainHand]
    · simp only [missed, List.append_nil, refines.lost]

/-- The kernel takes the oldest entry: the oldest request is begun. -/
theorem consume_refines (refines : Refines installed s a) {sqe : Sqe} {rest : List Sqe}
    (taken : s.stages.sq.published = sqe :: rest)
    (fits : (rest ++ s.stages.sq.pending).length ≤ entries) :
    ∃ a', (serviceOf pool files world).Reaches byService a a' ∧
      Refines installed { s with
        stages := { s.stages with
          sq := ⟨rest, s.stages.sq.pending, fits⟩, inFlight := s.stages.inFlight ++ [sqe] }
        results := s.results ++ [none] } a' := by
  obtain ⟨filled, entered, queued⟩ := refines.queued
  simp only [boundedSq, taken, List.cons_append] at entered
  cases filled with
  | nil => cases entered
  | cons req later =>
    obtain ⟨rfl, tail⟩ := List.cons.inj entered
    have begins : a.next files pool.bufferCount.toNat pool.bufferSize.toNat .begin = some { a with
        queued := later ++ (drainHand s.stages.drain ++ Q.held s.stages.submitRing)
        serving := a.serving ++ [(req, none)] } := by
      simp only [State.next, queued, List.cons_append]
    refine ⟨_, reaches_one begins trivial, refines.world, ⟨later, tail, rfl⟩, ?_, ?_,
      refines.posted, refines.lost, refines.accepted⟩
    · simp only [refines.inFlight, List.map_append, List.map_cons, List.map_nil]
    · simp only [refines.results, List.map_append, List.map_cons, List.map_nil]

/-- The kernel posts the result of an entry it has carried out. -/
theorem complete_refines (refines : Refines installed s a) {position : ℕ} {sqe : Sqe} {res : Int32}
    (found : s.stages.inFlight[position]? = some sqe)
    (ready : s.results[position]? = some (some res)) :
    ∃ a', (serviceOf pool files world).Reaches byService a a' ∧
      Refines installed { s with
        stages := { s.stages with
          inFlight := s.stages.inFlight.eraseIdx position
          cq := s.stages.cq ++ [⟨sqe.userData, res⟩]
          posted := s.stages.posted ++ [⟨sqe.userData, res⟩] }
        results := s.results.eraseIdx position } a' := by
  rw [refines.inFlight, List.getElem?_map] at found
  rw [refines.results, List.getElem?_map] at ready
  obtain ⟨⟨req, result⟩, place, rfl⟩ := Option.map_eq_some_iff.mp found
  rw [place] at ready
  cases ready
  have answers : a.next files pool.bufferCount.toNat pool.bufferSize.toNat (.answer position) =
      some { a with
        serving := a.serving.eraseIdx position, answered := a.answered ++ [(req, res)] } := by
    simp only [State.next, place]
  refine ⟨_, reaches_one answers trivial, refines.world, refines.queued, ?_, ?_, ?_, refines.lost,
    refines.accepted⟩
  · simp only [refines.inFlight, List.eraseIdx_map]
  · simp only [refines.results, List.eraseIdx_map]
  · simp only [refines.posted, List.map_append, List.map_cons, List.map_nil, translate]

theorem stage_refines (refines : Refines installed s a) {command : Pipeline.Command}
    {stages : Stages Q R entries} (permitted : permits s.results command = true)
    (moved : Moved pool.toBufferPool cqEntries s.stages command stages) :
    ∃ a', (serviceOf pool files world).Reaches byService a a' ∧
      Refines installed { s with stages := stages, results := follow s.results command } a' := by
  cases moved with
  | push req => exact push_refines refines req
  | pop =>
    exact ⟨a, .refl, refines.world, refines.queued, refines.inFlight, refines.results,
      refines.posted, refines.lost, refines.accepted⟩
  | drain maxBatch idle =>
    have queued := refines.queued
    rw [idle] at queued
    exact ⟨a, .refl, refines.world, queued, refines.inFlight, refines.results, refines.posted,
      refines.lost, refines.accepted⟩
  | runDrain inside ran =>
    subst ran
    exact runDrain_refines refines inside
  | consume taken fits => exact consume_refines refines taken fits
  | complete res found room =>
    exact complete_refines refines found (of_decide_eq_true permitted)
  | harvest maxBatch idle =>
    exact ⟨a, .refl, refines.world, refines.queued, refines.inFlight, refines.results,
      refines.posted, refines.lost, refines.accepted⟩
  | runHarvest inside ran =>
    exact ⟨a, .refl, refines.world, refines.queued, refines.inFlight, refines.results,
      refines.posted, refines.lost, refines.accepted⟩

/-- The kernel carries out an entry: its request is served. -/
theorem carryOut_refines (refines : Refines installed s a) {position : ℕ} {sqe : Sqe}
    {outcome : Outcome} {done : World Device × Int32}
    (found : s.stages.inFlight[position]? = some sqe) (waiting : s.results[position]? = some none)
    (carried : execute files iovecs s.world sqe outcome = some done) :
    ∃ a', (serviceOf pool files world).Reaches byService a a' ∧
      Refines installed { s with
        results := s.results.set position (some done.2), world := done.1 } a' := by
  rw [refines.inFlight, List.getElem?_map] at found
  rw [refines.results, List.getElem?_map] at waiting
  obtain ⟨⟨req, result⟩, place, rfl⟩ := Option.map_eq_some_iff.mp found
  rw [place] at waiting
  cases waiting
  have same := installed.execute_translate files refines.world req outcome
  rw [carried] at same
  generalize answer : serve files pool.bufferCount.toNat pool.bufferSize.toNat a.world req outcome =
    served at same
  cases same with
  | @some served _ both =>
    have serves : a.next files pool.bufferCount.toNat pool.bufferSize.toNat
        (.carryOut position outcome) = some { a with
          serving := a.serving.set position (req, some served.2), world := served.1 } := by
      simp only [State.next, place, answer, Option.map_some]
    refine ⟨_, reaches_one serves trivial, both.1, refines.queued, ?_, ?_, refines.posted,
      refines.lost, refines.accepted⟩
    · rw [refines.inFlight]
      have reads : translate pool.toBufferPool (req, some served.2).1 =
          translate pool.toBufferPool (req, (none : Option Int32)).1 := rfl
      exact (map_set_same (f := fun entry => translate pool.toBufferPool entry.1) place reads).symm
    · simp only [refines.results, List.map_set, both.2]

/-- The client writes to a buffer of its pool. -/
theorem fill_refines (refines : Refines installed s a) {index : UInt32} {start : ℕ}
    {values : List UInt8} (there : index.toNat < pool.bufferCount.toNat)
    (short : start + values.length ≤ pool.bufferSize.toNat) :
    ∃ a', (serviceOf pool files world).Reaches Machine.anyStep a a' ∧
      Refines installed { s with world := { s.world with
        bytes := ByteCopies.fill s.world.bytes ⟨.memory, (pool.data index).toNat + start⟩
          values.length fun k => values.getD k 0 } } a' := by
  have fills : a.next files pool.bufferCount.toNat pool.bufferSize.toNat
      (.fill index start values) = some { a with world := { a.world with
        bytes := ByteCopies.fill a.world.bytes ⟨.buffer index.toNat, start⟩ values.length
          fun k => values.getD k 0 } } := by
    simp only [State.next, there, short, and_self, if_true]
  have place : installed.layout.locate ⟨.buffer index.toNat, start⟩ =
      ⟨.memory, (pool.data index).toNat + start⟩ := by
    simp [Layout.locate, Installed.layout, Pool.address]
  refine ⟨_, .single ⟨.fill index start values, fills, trivial⟩,
    ⟨?_, refines.world.position⟩, refines.queued, refines.inFlight, refines.results,
    refines.posted, refines.lost, refines.accepted⟩
  have same : ∀ k < values.length, values.getD k 0 = values.getD k 0 := fun _ _ => rfl
  rw [← place]
  exact refines.world.bytes.fill (installed.fits_buffer there short) same

/-- The steps other than the client's own writes. -/
def byPipeline (_ : Plant Q R entries) (command : Command) (_ : Plant Q R entries) : Prop :=
  match command with
  | .fill _ _ _ => False
  | _ => True

theorem step_refines_service (refines : Refines installed s a) {command : Command}
    (moved : s.next pool cqEntries files iovecs command = some s')
    (allowed : byPipeline s command s') :
    ∃ a', (serviceOf pool files world).Reaches byService a a' ∧
      Refines installed s' a' := by
  cases command with
  | stage command =>
    simp only [Plant.next] at moved
    split at moved
    · rename_i permitted
      obtain ⟨stages, stepped, rfl⟩ := Option.map_eq_some_iff.mp moved
      exact stage_refines refines permitted (moved_of_next stepped)
    · cases moved
  | carryOut position outcome =>
    simp only [Plant.next] at moved
    split at moved
    · rename_i sqe found waiting
      obtain ⟨done, carried, rfl⟩ := Option.map_eq_some_iff.mp moved
      exact carryOut_refines refines found waiting carried
    · cases moved
  | fill index start values => exact allowed.elim

theorem step_refines (refines : Refines installed s a) {command : Command}
    (moved : s.next pool cqEntries files iovecs command = some s') :
    ∃ a', (serviceOf pool files world).Reaches Machine.anyStep a a' ∧ Refines installed s' a' := by
  have loosen {command : Command} (moved : s.next pool cqEntries files iovecs command = some s')
      (allowed : byPipeline s command s') :
      ∃ a', (serviceOf pool files world).Reaches Machine.anyStep a a' ∧
        Refines installed s' a' := by
    obtain ⟨a', onward, refines'⟩ : ∃ a', (serviceOf pool files world).Reaches byService a a' ∧
      Refines installed s' a' := step_refines_service refines moved allowed
    exact ⟨a', onward.mono fun _ _ _ _ => trivial, refines'⟩
  cases command with
  | stage command => exact loosen moved trivial
  | carryOut position outcome => exact loosen moved trivial
  | fill index start values =>
    simp only [Plant.next] at moved
    split at moved
    · rename_i valid
      cases moved
      exact fill_refines refines valid.1 valid.2
    · cases moved

/-- Memory beside the buffers stays as it is. -/
theorem step_beside (refines : Refines installed s a) {command : Command} {address : ℕ}
    (moved : s.next pool cqEntries files iovecs command = some s')
    (outside : pool.Beside address) :
    s'.world.bytes .memory address = s.world.bytes .memory address := by
  cases command with
  | stage command =>
    simp only [Plant.next] at moved
    split at moved
    · obtain ⟨stages, -, rfl⟩ := Option.map_eq_some_iff.mp moved
      rfl
    · cases moved
  | carryOut position outcome =>
    simp only [Plant.next] at moved
    split at moved
    · rename_i sqe found waiting
      obtain ⟨done, carried, rfl⟩ := Option.map_eq_some_iff.mp moved
      rw [refines.inFlight, List.getElem?_map] at found
      obtain ⟨entry, -, rfl⟩ := Option.map_eq_some_iff.mp found
      exact installed.execute_beside outside carried
    · cases moved
  | fill index start values =>
    simp only [Plant.next] at moved
    split at moved
    · rename_i valid
      cases moved
      have beside := outside _ valid.1
      rw [Pool.address, UInt32.ofNat_toNat] at beside
      show ByteCopies.fill s.world.bytes ⟨.memory, (pool.data index).toNat + start⟩ values.length
        (fun k => values.getD k 0) .memory address = _
      refine fill_outside fun covered => ?_
      obtain ⟨-, from_, below⟩ := covered
      simp only at from_ below
      omega
    · cases moved

theorem start_refines (installed : Installed pool iovecs) (world : World Device) :
    Refines installed (plant pool cqEntries files iovecs Q R entries world).start
      (machine files pool.bufferCount.toNat pool.bufferSize.toNat (pool.view world)).start where
  world := installed.view_matches world
  queued := ⟨[], rfl, by simp [plant, machine, Pipeline.machine, Q.new_held, drainHand]⟩
  inFlight := rfl
  results := rfl
  posted := rfl
  lost := rfl
  accepted := rfl

/-- The stages of a run are a run of the stages. -/
theorem run_stages {world : World Device}
    (reached : (plant pool cqEntries files iovecs Q R entries world).Reachable Machine.anyStep s) :
    (Pipeline.machine Q R entries pool.toBufferPool cqEntries).Reachable Machine.anyStep
      s.stages := by
  refine reached.invariant (P := fun s => (Pipeline.machine Q R entries pool.toBufferPool
    cqEntries).Reachable Machine.anyStep s.stages) ?_ ?_
  · exact Relation.ReflTransGen.refl
  · intro s command s' before moved _
    cases command with
    | stage command =>
      simp only [plant, Plant.next] at moved
      split at moved
      · obtain ⟨stages, stepped, rfl⟩ := Option.map_eq_some_iff.mp moved
        exact before.trans (.single ⟨command, stepped, trivial⟩)
      · cases moved
    | carryOut position outcome =>
      simp only [plant, Plant.next] at moved
      split at moved
      · obtain ⟨done, -, rfl⟩ := Option.map_eq_some_iff.mp moved
        exact before
      · cases moved
    | fill index start values =>
      simp only [plant, Plant.next] at moved
      split at moved
      · cases moved
        exact before
      · cases moved

end

/-- A byte goes from the second buffer to a file and from there to the first. -/
def roundTrip : List Command :=
  let call : List Command := [.stage (.drain 4), .stage .runDrain, .stage .runDrain,
    .stage .runDrain, .stage .runDrain, .stage .consume, .carryOut 0 (.moved 1 none),
    .stage (.complete 0 1), .stage (.harvest 4), .stage .runHarvest, .stage .runHarvest,
    .stage .runHarvest, .stage .runHarvest, .stage .pop]
  [.fill 1 0 [0xAB], .stage (.push ⟨.write, 0, 1, 512, 1, 111⟩)] ++ call ++
    [.stage (.push ⟨.read, 0, 0, 512, 1, 222⟩)] ++ call

end Ringio.Service
