import Ringio.SqpollEngine
import Ringio.SpscRing
import Ringio.MpmcSequential

/-! Where requests go in `drain_and_submit`. The loop pops a request before it
asks for an entry, so a call that runs out of entries with requests left has
one in its hands that it neither fills nor puts back. -/
namespace Ringio.SqpollEngine
open BoundedFifo

variable {Q : Queue IoRequest} {U : SubmissionRing} {pool : BufferPool} {maxBatch : ℕ}
  {queue : Q.State} {ring : U.State} {submitted fuel : ℕ}

/-- A call that goes on. -/
private theorem drain_running {queue' : Q.State} {ring' : U.State} {point point' : DrainPoint}
    (step : drainStep Q U pool maxBatch queue ring point = ((queue', ring'), .running point')) :
    drain Q U pool maxBatch (fuel + 1) queue ring point =
      drain Q U pool maxBatch fuel queue' ring' point' := by
  rw [drain, step]

/-- The end of a call. -/
private theorem drain_submit (Q : Queue IoRequest) (U : SubmissionRing) (pool : BufferPool)
    (maxBatch : ℕ) (queue : Q.State) (ring : U.State) (submitted : ℕ) (enough : 1 ≤ fuel) :
    ∃ ring', drain Q U pool maxBatch fuel queue ring (.submit submitted) =
        some (submitted, queue, ring') ∧ U.sqes ring' = U.sqes ring := by
  obtain ⟨fuel, rfl⟩ := Nat.exists_eq_add_of_le' enough
  obtain ⟨ring', step, same⟩ := drainStep_submit pool maxBatch queue ring submitted
  exact ⟨ring', by rw [drain, step], same⟩

/-- The end of a call whose loop condition fails. -/
private theorem drain_stop (pool : BufferPool) (ring : U.State)
    (ended : maxBatch ≤ submitted ∨ Q.held queue = []) (enough : 2 ≤ fuel) :
    ∃ queue' ring', drain Q U pool maxBatch fuel queue ring (.test submitted) =
        some (submitted, queue', ring') ∧ Q.held queue' = Q.held queue ∧
      U.sqes ring' = U.sqes ring := by
  obtain ⟨fuel, rfl⟩ := Nat.exists_eq_add_of_le' enough
  obtain ⟨queue', step, left⟩ := drainStep_stop pool ring ended
  obtain ⟨ring', ran, same⟩ :=
    drain_submit Q U pool maxBatch queue' ring submitted (show 1 ≤ fuel + 1 by omega)
  exact ⟨queue', ring', (drain_running step).trans ran, left, same⟩

/-- What the rest of a call does, from the loop condition on: it fills entries
for the oldest requests while batch, queue and ring last, and takes one request
more out of the queue when the ring is what gives out. -/
theorem drain_loop (remaining : ℕ) (queue : Q.State) (ring : U.State) (submitted fuel : ℕ)
    (batch : submitted + remaining = maxBatch) (enough : 2 * remaining + 3 ≤ fuel) :
    ∃ queue' ring', drain Q U pool maxBatch fuel queue ring (.test submitted) =
        some (submitted + min (min remaining (Q.held queue).length) (U.free ring),
          queue', ring') ∧
      Q.held queue' =
        (Q.held queue).drop (min (min remaining (Q.held queue).length) (U.free ring + 1)) ∧
      U.sqes ring' = U.sqes ring ++
        ((Q.held queue).take (min (min remaining (Q.held queue).length) (U.free ring))).map
          (translate pool) := by
  induction remaining generalizing queue ring submitted fuel with
  | zero =>
    have ended : maxBatch ≤ submitted ∨ Q.held queue = [] := .inl (by omega)
    obtain ⟨queue', ring', ran, left, same⟩ := drain_stop pool ring ended (show 2 ≤ fuel by omega)
    exact ⟨queue', ring', by simpa using ran, by simpa using left, by simpa using same⟩
  | succ remaining ih =>
    cases contents : Q.held queue with
    | nil =>
      obtain ⟨queue', ring', ran, left, same⟩ :=
        drain_stop pool ring (.inr contents) (show 2 ≤ fuel by omega)
      exact ⟨queue', ring', by simpa using ran, by simpa [contents] using left, by simpa using same⟩
    | cons req rest =>
      obtain ⟨fuel, rfl⟩ := Nat.exists_eq_add_of_le' (show 2 ≤ fuel by omega)
      have more : submitted < maxBatch := by omega
      obtain ⟨queue₁, step, left⟩ := drainStep_pop pool ring more contents
      rw [drain_running step]
      cases filled : U.fill ring (translate pool req) with
      | none =>
        have full := (U.fill_none ring _).mp filled
        obtain ⟨ring', ran, same⟩ := drain_submit Q U pool maxBatch queue₁ ring submitted
          (show 1 ≤ fuel by omega)
        rw [drain, drainStep, filled]
        refine ⟨queue₁, ring', by simpa [full] using ran, ?_, by simp [full, same]⟩
        have one : min (min (remaining + 1) (req :: rest).length) (U.free ring + 1) = 1 := by
          simp only [List.length_cons]
          omega
        rw [left, one]
        rfl
      | some ring₁ =>
        obtain ⟨space, appended⟩ := U.fill_some ring _ ring₁ filled
        obtain ⟨queue', ring', ran, emptied, entries⟩ :=
          ih queue₁ ring₁ (submitted + 1) fuel (by omega) (by omega)
        rw [left] at ran emptied entries
        rw [drain, drainStep, filled]
        have count : min (min (remaining + 1) (req :: rest).length) (U.free ring) =
            min (min remaining rest.length) (U.free ring₁) + 1 := by
          simp only [List.length_cons]
          omega
        have taken : min (min (remaining + 1) (req :: rest).length) (U.free ring + 1) =
            min (min remaining rest.length) (U.free ring₁ + 1) + 1 := by
          simp only [List.length_cons]
          omega
        refine ⟨queue', ring', ?_, ?_, ?_⟩
        · rw [count, ← Nat.add_assoc, Nat.add_right_comm]
          exact ran
        · rw [taken, List.drop_succ_cons]
          exact emptied
        · rw [entries, appended, count, List.take_succ_cons, List.map_cons, List.append_assoc]
          rfl

/-- A whole call. -/
theorem drainAndSubmit_spec (Q : Queue IoRequest) (U : SubmissionRing) (pool : BufferPool)
    (maxBatch : ℕ) (queue : Q.State) (ring : U.State) :
    ∃ queue' ring', drainAndSubmit Q U pool maxBatch queue ring =
        some (min (min maxBatch (Q.held queue).length) (U.free ring), queue', ring') ∧
      Q.held queue' =
        (Q.held queue).drop (min (min maxBatch (Q.held queue).length) (U.free ring + 1)) ∧
      U.sqes ring' = U.sqes ring ++
        ((Q.held queue).take (min (min maxBatch (Q.held queue).length) (U.free ring))).map
          (translate pool) := by
  obtain ⟨queue', ring', ran, left, entries⟩ :=
    drain_loop maxBatch queue ring 0 _ (Nat.zero_add maxBatch) le_rfl
  exact ⟨queue', ring', by rw [drainAndSubmit, ran, Nat.zero_add], left, entries⟩

/-! ## No request lost -/

/-- The call ends, the requests it took out of the queue are those it filled
entries for, in order, and it returns their number. -/
def Conserves (Q : Queue IoRequest) (U : SubmissionRing) (pool : BufferPool) (maxBatch : ℕ)
    (queue : Q.State) (ring : U.State) : Prop :=
  ∃ taken count queue' ring',
    drainAndSubmit Q U pool maxBatch queue ring = some (count, queue', ring') ∧
    Q.held queue = taken ++ Q.held queue' ∧
    U.sqes ring' = U.sqes ring ++ taken.map (translate pool) ∧ count = taken.length

/-- Enough free entries for the batch: nothing is taken that is not filled. -/
theorem conserves_of_room (room : min maxBatch (Q.held queue).length ≤ U.free ring) :
    Conserves Q U pool maxBatch queue ring := by
  obtain ⟨queue', ring', ran, left, entries⟩ :=
    drainAndSubmit_spec Q U pool maxBatch queue ring
  rw [min_eq_left room] at ran entries
  rw [min_eq_left (room.trans (Nat.le_succ _))] at left
  refine ⟨(Q.held queue).take (min maxBatch (Q.held queue).length), _, queue', ring', ran, ?_,
    entries, ?_⟩
  · rw [left, List.take_append_drop]
  · rw [List.length_take]
    omega

/-- Too few: one request more leaves the queue than entries are filled. -/
theorem room_of_conserves (conserves : Conserves Q U pool maxBatch queue ring) :
    min maxBatch (Q.held queue).length ≤ U.free ring := by
  obtain ⟨taken, count, queue₁, ring₁, ran₁, split, -, counted⟩ := conserves
  obtain ⟨queue', ring', ran, left, -⟩ := drainAndSubmit_spec Q U pool maxBatch queue ring
  rw [ran₁] at ran
  cases ran
  have lengths := congrArg List.length split
  rw [List.length_append, left, List.length_drop] at lengths
  omega

/-- A queue fed by its producer and drained call by call. The submission ring of
each call is as the kernel has left it by then. -/
structure Line (Q : Queue IoRequest) where
  queue : Q.State
  accepted : List IoRequest
  filled : List Sqe

inductive LineCommand (U : SubmissionRing) where
  | push (req : IoRequest)
  | drain (ring : U.State) (maxBatch : ℕ)

def Line.next (U : SubmissionRing) (pool : BufferPool) (s : Line Q) :
    LineCommand U → Option (Line Q)
  | .push req =>
    let pushed := Q.tryPush s.queue req
    some { s with
      queue := pushed.2, accepted := if pushed.1 then s.accepted ++ [req] else s.accepted }
  | .drain ring maxBatch =>
    (drainAndSubmit Q U pool maxBatch s.queue ring).map fun done =>
      { s with
        queue := done.2.1, filled := s.filled ++ (U.sqes done.2.2).drop (U.sqes ring).length }

def line (Q : Queue IoRequest) (U : SubmissionRing) (pool : BufferPool) :
    Machine (Line Q) (LineCommand U) where
  start := ⟨Q.new, [], []⟩
  next := Line.next U pool

/-- Runs whose drain calls find enough free entries. -/
def roomy (s : Line Q) (command : LineCommand U) (_ : Line Q) : Prop :=
  ∀ ring maxBatch, command = .drain ring maxBatch →
    min maxBatch (Q.held s.queue).length ≤ U.free ring

/-- Filled in order, and the rest still queued. -/
def Accounted (pool : BufferPool) (s : Line Q) : Prop :=
  ∃ taken, s.accepted = taken ++ Q.held s.queue ∧ s.filled = taken.map (translate pool)

theorem line_accounted {s s' : Line Q} {command : LineCommand U} (accounted : Accounted pool s)
    (moved : s.next U pool command = some s') (room : roomy s command s') :
    Accounted pool s' := by
  obtain ⟨taken, accepted, filled⟩ := accounted
  cases command with
  | push req =>
    cases moved
    refine ⟨taken, ?_, filled⟩
    rcases Nat.lt_or_ge (Q.held s.queue).length Q.capacity with free | full
    · obtain ⟨accepts, contents⟩ := Q.push_room req free
      simp only [accepts, contents, if_true, accepted, List.append_assoc]
    · obtain ⟨refuses, contents⟩ := Q.push_full req full
      simp only [refuses, contents, accepted, Bool.false_eq_true, if_false]
  | drain ring maxBatch =>
    obtain ⟨done, ran, rfl⟩ := Option.map_eq_some_iff.mp moved
    have kept : Conserves Q U pool maxBatch s.queue ring :=
      conserves_of_room (room ring maxBatch rfl)
    obtain ⟨more, count, queue', ring', ran', split, entries, -⟩ := kept
    rw [ran] at ran'
    cases ran'
    refine ⟨taken ++ more, ?_, ?_⟩
    · rw [accepted, split, List.append_assoc]
    · simp only [filled, entries, List.drop_left, List.map_append]

/-- **A drain call loses nothing exactly when the submission ring has room for
the batch**, and over any run of pushes and such calls every accepted request is
in an entry, in order, or still queued. -/
theorem drain_conserves_iff (Q : Queue IoRequest) (U : SubmissionRing) (pool : BufferPool) :
    (∀ maxBatch queue ring, Conserves Q U pool maxBatch queue ring ↔
      min maxBatch (Q.held queue).length ≤ U.free ring) ∧
    (∀ s, (line Q U pool).Reachable roomy s →
      ∃ taken, s.accepted = taken ++ Q.held s.queue ∧ s.filled = taken.map (translate pool)) := by
  refine ⟨fun maxBatch queue ring => ⟨room_of_conserves, conserves_of_room⟩, ?_⟩
  intro s reached
  exact reached.invariant (P := Accounted pool) ⟨[], Q.new_held.symm, rfl⟩ line_accounted

/-- One request queued and no free entry: the call returns zero, the request is
out of the queue and in no entry. -/
theorem popped_and_dropped (pool : BufferPool) {req : IoRequest} (one : Q.held queue = [req])
    (full : U.free ring = 0) :
    ¬ Conserves Q U pool 1 queue ring ∧
    ∃ queue' ring', drainAndSubmit Q U pool 1 queue ring = some (0, queue', ring') ∧
      Q.held queue' = [] ∧ U.sqes ring' = U.sqes ring := by
  refine ⟨fun conserves => ?_, ?_⟩
  · have room := room_of_conserves conserves
    rw [one, full] at room
    cases room
  · obtain ⟨queue', ring', ran, left, entries⟩ := drainAndSubmit_spec Q U pool 1 queue ring
    rw [one, full] at ran left entries
    exact ⟨queue', ring', ran, left, by simpa using entries⟩

/-- It happens with either ring as the queue. -/
theorem full_ring_drops_request :
    let spsc := SpscRing.fifo IoRequest ⟨1, by decide, by decide⟩
    let mpmc := MpmcRing.fifo IoRequest ⟨2, by decide, by decide⟩ (by decide) 0
    let pool : BufferPool := ⟨0, 4096⟩
    let ring : BoundedSq 1 := ⟨[translate pool default], [], by decide⟩
    (∃ queue : spsc.State, spsc.held queue = [default] ∧
      ¬ Conserves spsc (boundedSq 1) pool 1 queue ring ∧
      ∃ queue' ring', drainAndSubmit spsc (boundedSq 1) pool 1 queue ring =
        some (0, queue', ring') ∧ spsc.held queue' = [] ∧
        (boundedSq 1).sqes ring' = (boundedSq 1).sqes ring) ∧
    (∃ queue : mpmc.State, mpmc.held queue = [default] ∧
      ¬ Conserves mpmc (boundedSq 1) pool 1 queue ring ∧
      ∃ queue' ring', drainAndSubmit mpmc (boundedSq 1) pool 1 queue ring =
        some (0, queue', ring') ∧ mpmc.held queue' = [] ∧
        (boundedSq 1).sqes ring' = (boundedSq 1).sqes ring) := by
  intro spsc mpmc pool ring
  have filled (Q : Queue IoRequest) (room : 0 < Q.capacity) : ∃ queue, Q.held queue = [default] :=
    ⟨_, (Q.push_room default (by rw [Q.new_held]; exact room)).2.trans (by rw [Q.new_held]; rfl)⟩
  obtain ⟨queue, one⟩ := filled spsc (by decide)
  obtain ⟨queue', one'⟩ := filled mpmc (by decide)
  exact ⟨⟨queue, one, popped_and_dropped pool one rfl⟩,
    ⟨queue', one', popped_and_dropped pool one' rfl⟩⟩

end Ringio.SqpollEngine
