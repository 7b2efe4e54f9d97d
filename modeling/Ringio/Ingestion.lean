import Ringio.MpmcStreams
import Ringio.Pipeline

/-! Worker threads push requests into an `MpmcRing`, the engine's thread drains it
with `drain_and_submit`, the kernel consumes the submission ring. The parties
take turns one shared access at a time; the pops of the engine are calls among
those of the workers, refused or delayed like any other. -/
namespace Ringio.Ingestion
open BoundedFifo MpmcSystem MpmcStreams SqpollEngine Pipeline Interleaving

/-- The workers and the ring, the engine's call, the submission ring and what the
kernel has taken from it; the popped requests that have an entry, and those the
engine found no entry for. -/
structure State (Worker : Type) (C : Capacity) (entries : ℕ) where
  streams : Streams Worker IoRequest C
  drain : Option (ℕ × DrainPoint)
  sq : BoundedSq entries
  consumed : List Sqe
  placed : List IoRequest
  lost : List IoRequest

/-- A worker starts a `try_push` or goes on with it; the engine's thread starts a
`drain_and_submit` or goes on with it; the kernel takes the oldest entry. -/
inductive Command (Worker : Type) where
  | submit (worker : Worker) (req : IoRequest)
  | push (worker : Worker) (spurious : Bool)
  | drain (maxBatch : ℕ)
  | runDrain (spurious : Bool)
  | consume

variable {Worker : Type} [DecidableEq Worker] {C : Capacity} {entries : ℕ}

section
variable (pool : BufferPool)

/-- Where the loop goes with what its `try_pop` returned, if it has. -/
def afterPop (maxBatch submitted : ℕ) : Option (Option IoRequest) → ℕ × DrainPoint
  | none => (maxBatch, .test submitted)
  | some (some req) => (maxBatch, .reserve submitted req)
  | some none => (maxBatch, .submit submitted)

/-- The loop condition: the test of the batch, then the `try_pop` access by access. -/
def State.test (s : State Worker C entries) (maxBatch submitted : ℕ) (spurious : Bool) :
    Option (State Worker C entries) :=
  match s.streams.system.threads none with
  | none =>
    if submitted < maxBatch then s.streams.receive.map fun streams => { s with streams := streams }
    else some { s with drain := some (maxBatch, .submit submitted) }
  | some r =>
    (s.streams.pop spurious).map fun streams =>
      { s with
        streams := streams
        drain := some (afterPop maxBatch submitted
          (popReply s.streams.system.ring spurious r)) }

/-- The reservation of an entry and the stores into it. -/
def State.reserve (s : State Worker C entries) (maxBatch submitted : ℕ) (req : IoRequest) :
    State Worker C entries :=
  match (boundedSq entries).fill s.sq (translate pool req) with
  | none => { s with drain := some (maxBatch, .submit submitted), lost := s.lost ++ [req] }
  | some sq =>
    { s with
      sq := sq
      drain := some (maxBatch, .test (submitted + 1))
      placed := s.placed ++ [req] }

def State.next (s : State Worker C entries) : Command Worker → Option (State Worker C entries)
  | .submit worker req =>
    (s.streams.send worker req).map fun streams => { s with streams := streams }
  | .push worker spurious =>
    (s.streams.push worker spurious).map fun streams => { s with streams := streams }
  | .drain maxBatch =>
    match s.drain with
    | none => some { s with drain := some (maxBatch, .test 0) }
    | some _ => none
  | .runDrain spurious =>
    match s.drain with
    | none => none
    | some (maxBatch, .test submitted) => s.test maxBatch submitted spurious
    | some (maxBatch, .reserve submitted req) => some (s.reserve pool maxBatch submitted req)
    | some (_, .submit submitted) =>
      some { s with
        sq := if 0 < submitted then (boundedSq entries).submit s.sq else s.sq
        drain := none }
  | .consume =>
    match split : s.sq.published with
    | [] => none
    | sqe :: rest =>
      some { s with
        sq := ⟨rest, s.sq.pending, by
          have fits := s.sq.fits
          rw [split] at fits
          exact Nat.le_of_succ_le fits⟩
        consumed := s.consumed ++ [sqe] }

/-- Everything empty, no call in progress. -/
def machine (Worker : Type) [DecidableEq Worker] (C : Capacity) (entries : ℕ) :
    Machine (State Worker C entries) (Command Worker) where
  start := ⟨(MpmcStreams.machine Worker IoRequest C).start, none, ⟨[], [], Nat.zero_le _⟩,
    [], [], []⟩
  next := State.next pool

end

/-- Runs whose cursors stay below `2 ^ 63`. -/
def small (_ : State Worker C entries) (_ : Command Worker) (s' : State Worker C entries) : Prop :=
  s'.streams.system.ring.enqueuePos.toNat < 2 ^ 63 ∧
    s'.streams.system.ring.dequeuePos.toNat < 2 ^ 63

instance (s : State Worker C entries) (command : Command Worker) (s' : State Worker C entries) :
    Decidable (small s command s') :=
  inferInstanceAs (Decidable (_ ∧ _))

variable {pool : BufferPool} {s s' : State Worker C entries}

/-- The entries are the placed requests in their order, those are among the
received in theirs, and a received request is placed, lost, or in the engine's
hands. -/
structure Sound (pool : BufferPool) (s : State Worker C entries) : Prop where
  ordered : Ordered s.streams
  filled : s.consumed ++ (boundedSq entries).sqes s.sq = s.placed.map (translate pool)
  among : (s.placed ++ drainHand s.drain).Sublist s.streams.received
  whole : (s.placed ++ drainHand s.drain ++ s.lost).Perm s.streams.received

omit [DecidableEq Worker] in
/-- A step of the workers leaves the engine alone. -/
theorem worker_sound (sound : Sound pool s) {streams : Streams Worker IoRequest C}
    (ordered : Ordered streams) (received : streams.received = s.streams.received) :
    Sound pool { s with streams := streams } :=
  ⟨ordered, sound.filled, received ▸ sound.among, received ▸ sound.whole⟩

theorem test_sound (several : 2 ≤ C.size) (sound : Sound pool s) {maxBatch submitted : ℕ}
    {spurious : Bool} (here : s.drain = some (maxBatch, .test submitted))
    (moved : s.test maxBatch submitted spurious = some s')
    (within : small s (.runDrain spurious) s') : Sound pool s' := by
  have among := sound.among
  have whole := sound.whole
  simp only [here, drainHand, List.append_nil] at among whole
  simp only [State.test] at moved
  split at moved
  · split at moved
    · obtain ⟨streams, called, rfl⟩ := Option.map_eq_some_iff.mp moved
      have ordered : Ordered streams := step_ordered several sound.ordered
        (show s.streams.next .receive = some streams from called) within
      obtain ⟨x', -, rfl⟩ := Option.map_eq_some_iff.mp called
      exact worker_sound sound ordered rfl
    · cases moved
      refine ⟨sound.ordered, sound.filled, ?_, ?_⟩
      · simpa only [drainHand, List.append_nil] using among
      · simpa only [drainHand, List.append_nil] using whole
  · rename_i r inside
    obtain ⟨streams, accessed, rfl⟩ := Option.map_eq_some_iff.mp moved
    have ordered : Ordered streams := step_ordered several sound.ordered
      (show s.streams.next (.pop spurious) = some streams from accessed) within
    obtain ⟨r', inside', accessed⟩ := Option.bind_eq_some_iff.mp accessed
    rw [inside] at inside'
    cases inside'
    obtain ⟨x', -, rfl⟩ := Option.map_eq_some_iff.mp accessed
    refine ⟨ordered, sound.filled, ?_, ?_⟩
    all_goals
      simp only
      rcases popReply s.streams.system.ring spurious r with _ | _ | req
    · simpa [afterPop, drainHand] using among
    · simpa [afterPop, drainHand] using among
    · exact among.append_right [req]
    · simpa [afterPop, drainHand] using whole
    · simpa [afterPop, drainHand] using whole
    · have added := List.perm_append_right_iff [req] |>.mpr whole
      refine List.Perm.trans ?_ added
      simp only [afterPop, drainHand, List.append_assoc]
      exact List.perm_append_comm.append_left s.placed

omit [DecidableEq Worker] in
theorem reserve_sound (sound : Sound pool s) {maxBatch submitted : ℕ} {req : IoRequest}
    (here : s.drain = some (maxBatch, .reserve submitted req)) :
    Sound pool (s.reserve pool maxBatch submitted req) := by
  have among := sound.among
  have whole := sound.whole
  simp only [here, drainHand] at among whole
  simp only [State.reserve]
  split
  · refine ⟨sound.ordered, sound.filled, ?_, ?_⟩
    · simp only [drainHand, List.append_nil]
      exact (List.sublist_append_left _ _).trans among
    · refine List.Perm.trans ?_ whole
      simp only [drainHand, List.append_nil, List.append_assoc]
      exact List.perm_append_comm.append_left s.placed
  · rename_i sq filled
    have appended := ((boundedSq entries).fill_some s.sq _ sq filled).2
    refine ⟨sound.ordered, ?_, ?_, ?_⟩
    · simp only [appended, List.map_append, List.map_singleton, ← sound.filled, List.append_assoc]
    · simpa only [drainHand, List.append_nil] using among
    · simpa only [drainHand, List.append_nil] using whole

omit [DecidableEq Worker] in
theorem submit_sound (sound : Sound pool s) {maxBatch submitted : ℕ}
    (here : s.drain = some (maxBatch, .submit submitted)) :
    Sound pool { s with
      sq := if 0 < submitted then (boundedSq entries).submit s.sq else s.sq
      drain := none } := by
  have among := sound.among
  have whole := sound.whole
  simp only [here] at among whole
  refine ⟨sound.ordered, ?_, among, whole⟩
  have same (sq : BoundedSq entries) (one : sq = (boundedSq entries).submit s.sq ∨ sq = s.sq) :
      s.consumed ++ (boundedSq entries).sqes sq = s.placed.map (translate pool) := by
    rw [← sound.filled]
    rcases one with rfl | rfl
    · exact congrArg (s.consumed ++ ·) ((boundedSq entries).submit_sqes s.sq)
    · rfl
  exact same _ (ite_eq_or_eq ..)

theorem step_sound (several : 2 ≤ C.size) {command : Command Worker} (sound : Sound pool s)
    (moved : s.next pool command = some s') (within : small s command s') : Sound pool s' := by
  cases command with
  | submit worker req =>
    obtain ⟨streams, sent, rfl⟩ := Option.map_eq_some_iff.mp moved
    have ordered : Ordered streams := step_ordered several sound.ordered
      (show s.streams.next (.send worker req) = some streams from sent) within
    obtain ⟨x', -, rfl⟩ := Option.map_eq_some_iff.mp sent
    exact worker_sound sound ordered rfl
  | push worker spurious =>
    obtain ⟨streams, pushed, rfl⟩ := Option.map_eq_some_iff.mp moved
    have ordered : Ordered streams := step_ordered several sound.ordered
      (show s.streams.next (.push worker spurious) = some streams from pushed) within
    obtain ⟨r, -, pushed⟩ := Option.bind_eq_some_iff.mp pushed
    obtain ⟨x', -, rfl⟩ := Option.map_eq_some_iff.mp pushed
    exact worker_sound sound ordered rfl
  | drain maxBatch =>
    simp only [State.next] at moved
    split at moved
    · rename_i idle
      cases moved
      have among := sound.among
      have whole := sound.whole
      rw [idle] at among whole
      exact ⟨sound.ordered, sound.filled, among, whole⟩
    · cases moved
  | runDrain spurious =>
    simp only [State.next] at moved
    split at moved
    · cases moved
    · rename_i maxBatch submitted here
      exact test_sound several sound here moved within
    · rename_i maxBatch submitted req here
      cases moved
      exact reserve_sound sound here
    · rename_i maxBatch submitted here
      cases moved
      exact submit_sound sound here
  | consume =>
    simp only [State.next] at moved
    split at moved
    · cases moved
    · rename_i sqe rest taken
      cases moved
      refine ⟨sound.ordered, ?_, sound.among, sound.whole⟩
      rw [← sound.filled]
      simp [boundedSq, taken]

theorem start_sound (several : 2 ≤ C.size) :
    Sound pool (machine pool Worker C entries).start where
  ordered := start_ordered several
  filled := rfl
  among := .slnil
  whole := .nil

theorem run_sound (several : 2 ≤ C.size)
    (reached : (machine pool Worker C entries).Reachable small s) : Sound pool s :=
  reached.invariant (start_sound several) (step_sound several)

/-- The entries are translations of an interleaving of the workers' requests. -/
theorem Sound.labelled (sound : Sound pool s) :
    ∃ labelled : List (Worker × IoRequest),
      labelled.map (fun entry => translate pool entry.2) =
        s.consumed ++ (boundedSq entries).sqes s.sq ∧
      (∀ w, (ofLabel labelled w).Sublist ((s.streams.sent w).map Prod.snd)) ∧
      labelled.length + (drainHand s.drain).length + s.lost.length =
        s.streams.received.length ∧
      (s.lost = [] → ∀ w, ofLabel labelled w <+: (s.streams.sent w).map Prod.snd) ∧
      (s.lost = [] → drainHand s.drain = [] →
        s.streams.received.length = s.streams.system.ring.enqueuePos.toNat →
        ∀ w, ofLabel labelled w = (s.streams.sent w).map Prod.snd) := by
  obtain ⟨all, elements, streamed, caught⟩ := sound.ordered.labelled
  have counted := sound.whole.length_eq
  simp only [List.length_append] at counted
  have named {labelled : List (Worker × IoRequest)} (placed : labelled.map Prod.snd = s.placed) :
      labelled.map (fun entry => translate pool entry.2) =
        s.consumed ++ (boundedSq entries).sqes s.sq := by
    rw [sound.filled, ← placed, List.map_map]
    rfl
  by_cases kept : s.lost = []
  · have every : s.placed ++ drainHand s.drain = s.streams.received := by
      refine sound.among.eq_of_length ?_
      rw [List.length_append]
      simpa only [kept, List.length_nil, add_zero] using counted
    have placed : (all.take s.placed.length).map Prod.snd = s.placed := by
      rw [List.map_take, elements, ← every, List.take_left]
    have first (w : Worker) : ofLabel (all.take s.placed.length) w <+: ofLabel all w :=
      ((List.take_prefix _ _).filter _).map _
    have length : (all.take s.placed.length).length = s.placed.length := by
      rw [← List.length_map Prod.snd, placed]
    refine ⟨all.take s.placed.length, named placed,
      fun w => ((first w).trans (streamed w)).sublist, by omega,
      fun _ w => (first w).trans (streamed w), fun _ idle behind w => ?_⟩
    have everything : s.placed.length = all.length := by
      rw [← List.length_map Prod.snd, elements, ← every, idle, List.append_nil]
    rw [everything, List.take_length]
    exact caught behind w
  · have part : s.placed.Sublist (all.map Prod.snd) := by
      rw [elements]
      exact (List.sublist_append_left _ _).trans sound.among
    obtain ⟨labelled, among, placed⟩ := List.sublist_map_iff.mp part
    have length : labelled.length = s.placed.length := by
      rw [← List.length_map Prod.snd, placed]
    exact ⟨labelled, named placed.symm,
      fun w => (ofLabel_sublist among w).trans (streamed w).sublist, by omega,
      fun none => absurd none kept, fun none => absurd none kept⟩

/-- **The requests of every worker reach the kernel in the order in which it pushed
them.** However the accesses of any number of workers, of the engine and of the
kernel interleave, the entries consumed and in the submission ring are the
translations of an interleaving of the workers' accepted requests, each worker's in
its order and no request twice. What is missing from one is on the way or was
popped when the submission ring was full; where that never happened there are no
gaps, and once the engine has caught up nothing is missing. -/
theorem workers_in_order (several : 2 ≤ C.size)
    (reached : (machine pool Worker C entries).Reachable small s) :
    ∃ labelled : List (Worker × IoRequest),
      labelled.map (fun entry => translate pool entry.2) =
        s.consumed ++ (boundedSq entries).sqes s.sq ∧
      (∀ w, (ofLabel labelled w).Sublist ((s.streams.sent w).map Prod.snd)) ∧
      labelled.length + (drainHand s.drain).length + s.lost.length =
        s.streams.received.length ∧
      (s.lost = [] → ∀ w, ofLabel labelled w <+: (s.streams.sent w).map Prod.snd) ∧
      (s.lost = [] → drainHand s.drain = [] →
        s.streams.received.length = s.streams.system.ring.enqueuePos.toNat →
        ∀ w, ofLabel labelled w = (s.streams.sent w).map Prod.snd) :=
  (run_sound several reached).labelled

/-- Two workers push one request each, the later one first; the engine pops both for a
submission ring of one entry. -/
def twoForOne : List (Command Bool) :=
  let accesses (w : Bool) (count : ℕ) : List (Command Bool) := List.replicate count (.push w false)
  [.submit false ⟨.read, 0, 0, 0, 512, 7⟩] ++ accesses false 1 ++
    [.submit true ⟨.write, 0, 1, 4096, 512, 8⟩] ++ accesses true 5 ++ accesses false 6 ++
    [.drain 4] ++ List.replicate 15 (.runDrain false)

theorem workers_in_order_twoForOne :
    let one := machine ⟨0, 4096⟩ Bool ⟨2, by decide, by decide⟩ 1
    ∃ s, one.execWithin small one.start twoForOne = some s ∧ s.lost.map IoRequest.token = [7] ∧
      ∃ labelled : List (Bool × IoRequest),
        labelled.map (fun entry => (translate ⟨0, 4096⟩ entry.2).userData) = [8] ∧
        ∀ w, (ofLabel labelled w).Sublist ((s.streams.sent w).map Prod.snd) := by
  intro one
  have ends : (one.execWithin small one.start twoForOne).map (fun s =>
      (s.lost.map IoRequest.token,
        (s.consumed ++ (boundedSq 1).sqes s.sq).map Sqe.userData)) = some ([7], [8]) := by
    decide
  obtain ⟨s, ran, shape⟩ := Option.map_eq_some_iff.mp ends
  simp only [Prod.mk.injEq] at shape
  obtain ⟨lost, placed⟩ := shape
  obtain ⟨labelled, filled, streamed, -⟩ := workers_in_order (by decide)
    (Machine.execWithin_reaches twoForOne ran)
  refine ⟨s, ran, lost, labelled, ?_, streamed⟩
  rw [← placed, ← filled, List.map_map]
  rfl

/-! ## With no more requests out than entries -/

/-- Runs in which the tickets out, up to what the kernel has consumed, are never
more than the submission ring has entries. -/
def withinRing (s : State Worker C entries) (command : Command Worker)
    (s' : State Worker C entries) : Prop :=
  small s command s' ∧ s'.streams.system.ring.enqueuePos.toNat ≤ s'.consumed.length + entries

instance (s : State Worker C entries) (command : Command Worker) (s' : State Worker C entries) :
    Decidable (withinRing s command s') :=
  inferInstanceAs (Decidable (_ ∧ _))

omit [DecidableEq Worker] in
/-- The engine finds an entry for the request in its hands. -/
theorem Sound.entry (sound : Sound pool s) {maxBatch submitted : ℕ} {req : IoRequest}
    (here : s.drain = some (maxBatch, .reserve submitted req))
    (room : s.streams.system.ring.enqueuePos.toNat ≤ s.consumed.length + entries) :
    (boundedSq entries).fill s.sq (translate pool req) ≠ none := by
  have received := sound.whole.length_eq
  have filled := congrArg List.length sound.filled
  have count := sound.ordered.receives.count
  have order := sound.ordered.sound.coherent.order
  rw [sound.ordered.sound.enqueuePos] at room
  simp only [here, drainHand, List.length_append, List.length_singleton, List.length_map]
    at received filled
  have short : ((boundedSq entries).sqes s.sq).length < entries := by omega
  intro full
  exact absurd (((boundedSq entries).fill_none s.sq _).mp full) (Nat.sub_ne_zero_of_lt short)

theorem step_kept {command : Command Worker} (sound : Sound pool s) (kept : s.lost = [])
    (moved : s.next pool command = some s') (within : withinRing s command s') :
    s'.lost = [] := by
  cases command with
  | submit worker req =>
    obtain ⟨streams, -, rfl⟩ := Option.map_eq_some_iff.mp moved
    exact kept
  | push worker spurious =>
    obtain ⟨streams, -, rfl⟩ := Option.map_eq_some_iff.mp moved
    exact kept
  | drain maxBatch =>
    simp only [State.next] at moved
    split at moved
    · cases moved
      exact kept
    · cases moved
  | runDrain spurious =>
    simp only [State.next] at moved
    split at moved
    · cases moved
    · simp only [State.test] at moved
      split at moved
      · split at moved
        · obtain ⟨streams, -, rfl⟩ := Option.map_eq_some_iff.mp moved
          exact kept
        · cases moved
          exact kept
      · obtain ⟨streams, -, rfl⟩ := Option.map_eq_some_iff.mp moved
        exact kept
    · rename_i maxBatch submitted req here
      have room := within.2
      cases moved
      simp only [State.reserve] at room ⊢
      split
      · rename_i full
        simp only [full] at room
        exact absurd full (sound.entry here room)
      · exact kept
    · cases moved
      exact kept
  | consume =>
    simp only [State.next] at moved
    split at moved
    · cases moved
    · cases moved
      exact kept

/-- **With no more requests out than the submission ring has entries, none is
lost**: what the kernel has been given of each worker is a beginning of what that
worker pushed, and all of it once the engine has caught up. -/
theorem nothing_lost_within_ring (several : 2 ≤ C.size)
    (reached : (machine pool Worker C entries).Reachable withinRing s) :
    s.lost = [] ∧
      ∃ labelled : List (Worker × IoRequest),
        labelled.map (fun entry => translate pool entry.2) =
          s.consumed ++ (boundedSq entries).sqes s.sq ∧
        (∀ w, ofLabel labelled w <+: (s.streams.sent w).map Prod.snd) ∧
        (drainHand s.drain = [] →
          s.streams.received.length = s.streams.system.ring.enqueuePos.toNat →
          ∀ w, ofLabel labelled w = (s.streams.sent w).map Prod.snd) := by
  have invariant : Sound pool s ∧ s.lost = [] := by
    refine reached.invariant (P := fun s => Sound pool s ∧ s.lost = [])
      ⟨start_sound several, rfl⟩ ?_
    rintro x x' command ⟨sound, kept⟩ moved within
    exact ⟨step_sound several sound moved within.1, step_kept sound kept moved within⟩
  obtain ⟨sound, kept⟩ := invariant
  obtain ⟨labelled, filled, -, -, first, all⟩ := sound.labelled
  exact ⟨kept, labelled, filled, first kept, all kept⟩

/-- The same for a submission ring of two entries; the kernel takes one. -/
def twoForTwo : List (Command Bool) :=
  twoForOne ++ List.replicate 3 (.runDrain false) ++ [.consume]

theorem nothing_lost_within_ring_twoForTwo :
    let two := machine ⟨0, 4096⟩ Bool ⟨2, by decide, by decide⟩ 2
    ∃ s, two.execWithin withinRing two.start twoForTwo = some s ∧ s.lost = [] ∧
      s.consumed.map Sqe.userData = [8] ∧
      ∃ labelled : List (Bool × IoRequest),
        labelled.map (fun entry => (translate ⟨0, 4096⟩ entry.2).userData) = [8, 7] ∧
        ∀ w, ofLabel labelled w <+: (s.streams.sent w).map Prod.snd := by
  intro two
  have ends : (two.execWithin withinRing two.start twoForTwo).map (fun s =>
      (s.consumed.map Sqe.userData,
        (s.consumed ++ (boundedSq 2).sqes s.sq).map Sqe.userData)) = some ([8], [8, 7]) := by
    decide
  obtain ⟨s, ran, shape⟩ := Option.map_eq_some_iff.mp ends
  simp only [Prod.mk.injEq] at shape
  obtain ⟨consumed, placed⟩ := shape
  obtain ⟨kept, labelled, filled, streamed, -⟩ := nothing_lost_within_ring (by decide)
    (Machine.execWithin_reaches twoForTwo ran)
  refine ⟨s, ran, kept, consumed, labelled, ?_, streamed⟩
  rw [← placed, ← filled, List.map_map]
  rfl

end Ringio.Ingestion
