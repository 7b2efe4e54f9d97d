import Ringio.FreeListSequential
import Ringio.PipelineDrains
import Ringio.PoolLayout
import Ringio.SpscRing

/-! The way of a buffer: from the free list to the client, with a request through
the rings, the engine and the kernel, back with its completion, and to the free
list again. The client uses the index of the buffer as token, as the benchmarks
do (`req.token = buf_index`). The pool is then the credit the pipeline needs. -/
namespace Ringio.BufferLifecycle
open BoundedFifo SqpollEngine Pipeline FreeListSequential

/-- The pipeline and the pool; what is checked out and not in a request is with the
client. -/
structure System (Q : Queue IoRequest) (R : Queue IoCompletion) (entries : ℕ) where
  stages : Stages Q R entries
  checkout : Checkout

/-- The client calls the pool, pushes a request for a buffer it has, or pops a
completion; the engine and the kernel go on. -/
inductive Command where
  | pool (call : Call)
  | submit (req : IoRequest)
  | collect
  | engine (command : Pipeline.Command)

section
variable {Q : Queue IoRequest} {R : Queue IoCompletion} {entries : ℕ} (pool : BufferPool)
  (cqEntries : UInt32)

/-- The steps that are not the client's. -/
def isEngine : Pipeline.Command → Bool
  | .push _ | .pop => false
  | _ => true

def System.next (s : System Q R entries) : Command → Option (System Q R entries)
  | .pool call => (s.checkout.next call).map fun checkout => { s with checkout := checkout }
  | .submit req =>
    if req.bufferIndex ∈ s.checkout.held ∧ req.token = req.bufferIndex.toUInt64 then
      (s.stages.next pool cqEntries (.push req)).map fun stages =>
        { stages := stages
          checkout := if (Q.tryPush s.stages.submitRing req).1 then
            { s.checkout with held := s.checkout.held.erase req.bufferIndex } else s.checkout }
    else none
  | .collect =>
    (s.stages.next pool cqEntries .pop).map fun stages =>
      { stages := stages
        checkout := { s.checkout with
          held := (R.tryPop s.stages.completionRing).1.toList.map (fun c => c.token.toUInt32) ++
            s.checkout.held } }
  | .engine command =>
    if isEngine command then
      (s.stages.next pool cqEntries command).map fun stages => { s with stages := stages }
    else none

/-- A fresh pool and an empty pipeline. -/
def machine (Q : Queue IoRequest) (R : Queue IoCompletion) (entries bufferCount : ℕ) :
    Machine (System Q R entries) Command where
  start := ⟨(Pipeline.machine Q R entries pool cqEntries).start, ⟨.new bufferCount, [], []⟩⟩
  next := System.next pool cqEntries

end

variable {Q : Queue IoRequest} {R : Queue IoCompletion} {entries bufferCount : ℕ}
  {pool : BufferPool} {cqEntries : UInt32} {s s' : System Q R entries}

/-- The tokens on their way, from the submit ring to the completion queue. -/
def circulating (s : Stages Q R entries) : Multiset UInt64 :=
  tally IoRequest.token (Q.held s.submitRing) + tally IoRequest.token (drainHand s.drain) +
    tally Sqe.userData ((boundedSq entries).sqes s.sq) + tally Sqe.userData s.inFlight +
    tally Cqe.userData (s.cq.drop (entriesRead s.harvest)) +
    tally IoCompletion.token (harvestHand s.harvest) +
    tally IoCompletion.token (R.held s.completionRing)

/-- The buffer a request or a completion is about, by its token. -/
def requested (req : IoRequest) : UInt32 := req.token.toUInt32

def completed (completion : IoCompletion) : UInt32 := completion.token.toUInt32

/-- The free list, what the client has, and what it has pushed make up the pool and
what it has popped. -/
structure Sound (bufferCount : ℕ) (pool : BufferPool) (cqEntries : UInt32)
    (s : System Q R entries) (free : List UInt32) : Prop where
  threads : s.checkout.list.Threads free
  balance : tally id free + tally id s.checkout.held + tally requested s.stages.accepted =
    tally id (FreeList.initial bufferCount) + tally completed s.stages.popped
  reached : (Pipeline.machine Q R entries pool cqEntries).Reachable credited s.stages
  tokens : ∀ req ∈ s.stages.accepted, req.token = req.bufferIndex.toUInt64

/-- What is not with the client or free is on its way. -/
theorem Sound.places {free : List UInt32} (sound : Sound bufferCount pool cqEntries s free) :
    tally id free + tally id s.checkout.held + (circulating s.stages).map UInt64.toUInt32 =
      tally id (FreeList.initial bufferCount) := by
  obtain ⟨whole, intact⟩ := run_intact sound.reached
  have accepted : tally requested s.stages.accepted =
      (circulating s.stages).map UInt64.toUInt32 + tally completed s.stages.popped := by
    have mapped := congrArg (Multiset.map UInt64.toUInt32) (whole.tokens intact)
    rw [map_tally, Multiset.map_add, map_tally] at mapped
    exact mapped
  have balance := sound.balance
  rw [accepted, ← add_assoc] at balance
  exact add_right_cancel balance

/-- A client with a buffer in its hands has credit. -/
theorem Sound.credit {free : List UInt32} (sound : Sound bufferCount pool cqEntries s free)
    (enough : bufferCount ≤ min entries R.capacity) {index : UInt32}
    (owned : index ∈ s.checkout.held) :
    s.stages.accepted.length < s.stages.popped.length + min entries R.capacity := by
  have counted := congrArg Multiset.card sound.balance
  have some_ := List.length_pos_of_mem owned
  simp only [Multiset.card_add, card_tally, FreeList.length_initial] at counted
  omega

/-- No buffer is free and with the client. -/
theorem Sound.nodup {free : List UInt32} (sound : Sound bufferCount pool cqEntries s free)
    (small : bufferCount < 2 ^ 32) : (free ++ s.checkout.held).Nodup := by
  have part : tally id free + tally id s.checkout.held ≤
      tally id (FreeList.initial bufferCount) := by
    rw [← sound.places]
    exact Multiset.le_add_right _ _
  rw [← tally_append, tally, tally, List.map_id, List.map_id] at part
  exact Multiset.nodup_of_le part (FreeList.initial_nodup small.le)

theorem Sound.lt {free : List UInt32} (sound : Sound bufferCount pool cqEntries s free)
    {index : UInt32} (owned : index ∈ s.checkout.held) : index.toNat < bufferCount := by
  rw [← FreeList.mem_initial]
  have member : index ∈ tally id (FreeList.initial bufferCount) := by
    rw [← sound.places]
    refine Multiset.mem_add.mpr (.inl (Multiset.mem_add.mpr (.inr ?_)))
    simpa [tally] using owned
  simpa [tally] using member

/-! ## Every step keeps the accounts -/

theorem pool_sound {free : List UInt32} (sound : Sound bufferCount pool cqEntries s free)
    (small : bufferCount < 2 ^ 32) {call : Call} {checkout : Checkout}
    (moved : s.checkout.next call = some checkout) :
    ∃ free', Sound bufferCount pool cqEntries { s with checkout := checkout } free' := by
  cases call with
  | acquire spurious =>
    rcases acquire_moved sound.threads moved with
      ⟨rfl, list', left, rfl⟩ | ⟨top, rest, list', rfl, left, rfl⟩
    · exact ⟨[], left, sound.balance, sound.reached, sound.tokens⟩
    · refine ⟨rest, left, ?_, sound.reached, sound.tokens⟩
      have balance := sound.balance
      simp only [tally_cons] at balance ⊢
      rw [← balance]
      abel
  | release index spurious =>
    simp only [Checkout.next] at moved
    split at moved
    · rename_i owned
      have proper : index ≠ kInvalidIndex := by
        rintro rfl
        have inRange := sound.lt owned
        simp only [kInvalidIndex, UInt32.reduceToNat] at inRange
        omega
      have elsewhere : index ∉ free := fun listed =>
        List.disjoint_of_nodup_append (sound.nodup small) listed owned
      obtain ⟨list', returned, linked⟩ :=
        FreeList.release_threads sound.threads proper elsewhere spurious
      rw [returned] at moved
      cases moved
      refine ⟨index :: free, linked, ?_, sound.reached, sound.tokens⟩
      have balance := sound.balance
      rw [tally_perm id (List.perm_cons_erase owned)] at balance
      simp only [tally_cons] at balance ⊢
      rw [← balance]
      abel
    · cases moved

theorem submit_sound {free : List UInt32} (sound : Sound bufferCount pool cqEntries s free)
    (enough : bufferCount ≤ min entries R.capacity) {req : IoRequest}
    (owned : req.bufferIndex ∈ s.checkout.held) (own : req.token = req.bufferIndex.toUInt64)
    (moved : s.next pool cqEntries (.submit req) = some s') :
    Sound bufferCount pool cqEntries s' free := by
  simp only [System.next, owned, own, and_self, if_true] at moved
  obtain ⟨stages, stepped, rfl⟩ := Option.map_eq_some_iff.mp moved
  have onward : (Pipeline.machine Q R entries pool cqEntries).Reachable credited stages :=
    sound.reached.trans (.single ⟨.push req, stepped, fun _ _ => sound.credit enough owned⟩)
  have index : requested req = req.bufferIndex := by
    rw [requested, own, UInt32.toUInt32_toUInt64]
  have balance := sound.balance
  cases stepped
  rcases Nat.lt_or_ge (Q.held s.stages.submitRing).length Q.capacity with room | full
  · obtain ⟨accepts, -⟩ := Q.push_room req room
    refine ⟨?_, ?_, onward, ?_⟩
    · simp only [accepts, if_true]
      exact sound.threads
    · rw [tally_perm id (List.perm_cons_erase owned)] at balance
      simp only [accepts, if_true, tally_append, tally_cons, tally_nil, index, id_eq] at balance ⊢
      rw [← balance]
      abel
    · simp only [accepts, if_true]
      intro other member
      rcases List.mem_append.mp member with before | now
      · exact sound.tokens other before
      · rw [List.mem_singleton.mp now]
        exact own
  · obtain ⟨refuses, -⟩ := Q.push_full req full
    refine ⟨?_, ?_, onward, ?_⟩
    · simp only [refuses, Bool.false_eq_true, if_false]
      exact sound.threads
    · simp only [refuses, Bool.false_eq_true, if_false]
      exact balance
    · simp only [refuses, Bool.false_eq_true, if_false]
      exact sound.tokens

theorem collect_sound {free : List UInt32} (sound : Sound bufferCount pool cqEntries s free)
    (moved : s.next pool cqEntries .collect = some s') :
    Sound bufferCount pool cqEntries s' free := by
  simp only [System.next] at moved
  obtain ⟨stages, stepped, rfl⟩ := Option.map_eq_some_iff.mp moved
  have onward : (Pipeline.machine Q R entries pool cqEntries).Reachable credited stages :=
    sound.reached.trans (.single ⟨.pop, stepped, fun _ other => by cases other⟩)
  cases stepped
  refine ⟨sound.threads, ?_, onward, sound.tokens⟩
  have balance := sound.balance
  have same : tally id ((R.tryPop s.stages.completionRing).1.toList.map
      fun c => c.token.toUInt32) = tally completed (R.tryPop s.stages.completionRing).1.toList := by
    rw [tally, List.map_id]
    rfl
  simp only [tally_append, same]
  rw [← add_assoc (tally id (FreeList.initial bufferCount)), ← balance]
  abel

/-- The engine and the kernel accept and pop nothing. -/
theorem engine_keeps {stages stages' : Stages Q R entries} {command : Pipeline.Command}
    (engine : isEngine command = true) (moved : Moved pool cqEntries stages command stages') :
    stages'.accepted = stages.accepted ∧ stages'.popped = stages.popped := by
  cases moved with
  | push | pop => cases engine
  | drain | runDrain | consume | complete | harvest | runHarvest => exact ⟨rfl, rfl⟩

theorem engine_sound {free : List UInt32} (sound : Sound bufferCount pool cqEntries s free)
    {command : Pipeline.Command} (moved : s.next pool cqEntries (.engine command) = some s') :
    Sound bufferCount pool cqEntries s' free := by
  simp only [System.next] at moved
  split at moved
  · rename_i engine
    obtain ⟨stages, stepped, rfl⟩ := Option.map_eq_some_iff.mp moved
    obtain ⟨accepted, popped⟩ := engine_keeps engine (moved_of_next stepped)
    refine ⟨sound.threads, ?_, sound.reached.trans (.single ⟨command, stepped, ?_⟩), ?_⟩
    · simp only [accepted, popped]
      exact sound.balance
    · rintro req rfl
      cases engine
    · simp only [accepted]
      exact sound.tokens
  · cases moved

theorem step_sound (small : bufferCount < 2 ^ 32) (enough : bufferCount ≤ min entries R.capacity)
    {command : Command} {free : List UInt32} (sound : Sound bufferCount pool cqEntries s free)
    (moved : s.next pool cqEntries command = some s') :
    ∃ free', Sound bufferCount pool cqEntries s' free' := by
  cases command with
  | pool call =>
    obtain ⟨checkout, called, rfl⟩ := Option.map_eq_some_iff.mp moved
    exact pool_sound sound small called
  | submit req =>
    by_cases valid : req.bufferIndex ∈ s.checkout.held ∧ req.token = req.bufferIndex.toUInt64
    · exact ⟨free, submit_sound sound enough valid.1 valid.2 moved⟩
    · simp only [System.next, if_neg valid] at moved
      cases moved
  | collect => exact ⟨free, collect_sound sound moved⟩
  | engine command => exact ⟨free, engine_sound sound moved⟩

theorem start_sound (positive : 0 < bufferCount) (small : bufferCount < 2 ^ 32) :
    Sound bufferCount pool cqEntries (machine pool cqEntries Q R entries bufferCount).start
      (FreeList.initial bufferCount) where
  threads := FreeList.new_threads positive small
  balance := by
    simp [machine, Pipeline.machine]
  reached := .refl
  tokens := by
    simp [machine, Pipeline.machine]

theorem run_sound (positive : 0 < bufferCount) (small : bufferCount < 2 ^ 32)
    (enough : bufferCount ≤ min entries R.capacity)
    (reached : (machine pool cqEntries Q R entries bufferCount).Reachable Machine.anyStep s) :
    ∃ free, Sound bufferCount pool cqEntries s free := by
  refine reached.invariant (P := fun s => ∃ free, Sound bufferCount pool cqEntries s free)
    ⟨_, start_sound positive small⟩ ?_
  rintro s s' command ⟨free, sound⟩ moved -
  exact step_sound small enough sound moved

/-! ## Where every buffer is -/

/-- The buffers of the entries the kernel has or will take. -/
def busy (s : Stages Q R entries) : List UInt32 :=
  ((boundedSq entries).sqes s.sq ++ s.inFlight).map fun sqe => sqe.userData.toUInt32

theorem Sound.apart {free : List UInt32} (sound : Sound bufferCount pool cqEntries s free) :
    tally id (free ++ s.checkout.held ++ busy s.stages) ≤
      tally id (FreeList.initial bufferCount) := by
  have way : tally id (busy s.stages) ≤ (circulating s.stages).map UInt64.toUInt32 := by
    have entries_ : tally id (busy s.stages) = (tally Sqe.userData
        ((boundedSq entries).sqes s.stages.sq ++ s.stages.inFlight)).map UInt64.toUInt32 := by
      rw [map_tally, tally, List.map_id]
      rfl
    rw [entries_, tally_append]
    refine Multiset.map_le_map ?_
    simp only [circulating]
    refine Multiset.le_iff_exists_add.mpr ⟨tally IoRequest.token (Q.held s.stages.submitRing) +
      tally IoRequest.token (drainHand s.stages.drain) +
      tally Cqe.userData (s.stages.cq.drop (entriesRead s.stages.harvest)) +
      tally IoCompletion.token (harvestHand s.stages.harvest) +
      tally IoCompletion.token (R.held s.stages.completionRing), ?_⟩
    abel
  rw [← sound.places, tally_append, tally_append]
  exact add_le_add_right way _

/-- An entry works on the buffer its token names. -/
theorem Sound.own {free : List UInt32} (sound : Sound bufferCount pool cqEntries s free) {sqe : Sqe}
    (entry : sqe ∈ (boundedSq entries).sqes s.stages.sq ++ s.stages.inFlight) :
    sqe.addr = pool.data sqe.userData.toUInt32 := by
  obtain ⟨req, known, rfl⟩ := (run_traced sound.reached).sqes sqe entry
  simp only [translate, sound.tokens req known, UInt32.toUInt32_toUInt64]

/-- A push for a buffer in hand finds room. -/
theorem Sound.accepts {free : List UInt32} (sound : Sound bufferCount pool cqEntries s free)
    (wide : bufferCount ≤ Q.capacity) {req : IoRequest}
    (owned : req.bufferIndex ∈ s.checkout.held) :
    (Q.tryPush s.stages.submitRing req).1 = true := by
  have counted := congrArg Multiset.card sound.places
  have some_ := List.length_pos_of_mem owned
  simp only [circulating, Multiset.map_add, Multiset.card_add, Multiset.card_map, card_tally,
    FreeList.length_initial] at counted
  exact (Q.push_room req (by omega)).1

/-- **Every buffer is in one place, in every state of every run.** With no more
buffers than both rings of the engine can hold, each is on the free list, with the
client, or on its way with its request or its completion, and nowhere twice. The
engine lets go of nothing; the entries that the kernel has or will take each work on
the buffer of their own token, and no two of them, nor one of them and a free
buffer or one with the client, share a byte; a client with a buffer is never
turned away from a submit ring as large as the pool. -/
theorem every_buffer_in_one_place {host : Host} {bufferCount bufferSize : UInt64} {pool : Pool}
    (constructed : Pool.construct host bufferCount bufferSize = .ok pool)
    (few : bufferCount.toNat < 2 ^ 32) (fits : bufferCount.toNat * bufferSize.toNat < 2 ^ 64)
    (enough : bufferCount.toNat ≤ min entries R.capacity)
    (reached : (machine pool.toBufferPool cqEntries Q R entries bufferCount.toNat).Reachable
      Machine.anyStep s) :
    ∃ free, s.checkout.list.Threads free ∧
      tally id free + tally id s.checkout.held + (circulating s.stages).map UInt64.toUInt32 =
        tally id (FreeList.initial bufferCount.toNat) ∧
      s.stages.lost = [] ∧ s.stages.dropped = [] ∧
      (∀ sqe ∈ (boundedSq entries).sqes s.stages.sq ++ s.stages.inFlight,
        sqe.addr = pool.data sqe.userData.toUInt32) ∧
      (free ++ s.checkout.held ++ busy s.stages).Pairwise (fun i j =>
        (pool.data i).toNat + bufferSize.toNat ≤ (pool.data j).toNat ∨
          (pool.data j).toNat + bufferSize.toNat ≤ (pool.data i).toNat) ∧
      (bufferCount.toNat ≤ Q.capacity → ∀ req : IoRequest, req.bufferIndex ∈ s.checkout.held →
        (Q.tryPush s.stages.submitRing req).1 = true) := by
  have layout := Pool.layoutSound_of_fits constructed fits few.le
  obtain ⟨some_, -, -, base, -, rfl⟩ := Pool.construct_ok constructed
  have positive : 0 < bufferCount.toNat :=
    Nat.pos_of_ne_zero fun zero => some_ (UInt64.toNat_inj.mp zero)
  obtain ⟨free, sound⟩ := run_sound positive few enough reached
  obtain ⟨-, intact⟩ := run_intact sound.reached
  have part := sound.apart
  rw [tally, tally, List.map_id, List.map_id] at part
  have distinct := Multiset.nodup_of_le part (FreeList.initial_nodup few.le)
  have inRange : ∀ index ∈ free ++ s.checkout.held ++ busy s.stages,
      index.toNat < bufferCount.toNat := by
    intro index member
    exact FreeList.mem_initial.mp (Multiset.mem_of_le part member)
  refine ⟨free, sound.threads, sound.places, intact.lost, intact.dropped,
    fun sqe entry => sound.own entry, ?_, fun wide req owned => sound.accepts wide owned⟩
  refine List.Pairwise.imp_of_mem ?_ (Multiset.coe_nodup.mp distinct)
  intro i j memberI memberJ different
  have apart := layout.apart i.toNat (inRange i memberI) j.toNat (inRange j memberJ)
    fun same => different (UInt32.toNat_inj.mp same)
  rw [Pool.address, Pool.address, UInt32.ofNat_toNat, UInt32.ofNat_toNat] at apart
  exact apart

/-- Two buffers; one has gone all the way and is free again, the other is in
flight. -/
def oneBack : List Command :=
  [.pool (.acquire 0), .pool (.acquire 1), .submit ⟨.read, 0, 1, 0, 512, 1⟩,
    .submit ⟨.write, 0, 0, 4096, 512, 0⟩, .engine (.drain 8),
    .engine .runDrain, .engine .runDrain, .engine .runDrain, .engine .runDrain, .engine .runDrain,
    .engine .runDrain, .engine .consume, .engine .consume, .engine (.complete 1 512),
    .engine (.harvest 8), .engine .runHarvest, .engine .runHarvest, .engine .runHarvest,
    .engine .runHarvest, .collect, .pool (.release 0 0)]

/-- The one in flight works beside the free one. -/
theorem every_buffer_in_one_place_oneBack :
    let Q := SpscRing.fifo IoRequest ⟨2, by decide, by decide⟩
    let R := SpscRing.fifo IoCompletion ⟨2, by decide, by decide⟩
    let pool := Pool.build 2 4096 65536
    let m := machine pool.toBufferPool 4 Q R 2 2
    ∃ s, m.exec m.start oneBack = some s ∧ s.stages.inFlight.map Sqe.userData = [1] ∧
      s.checkout.held = [] ∧ s.checkout.list.Threads [0] := by
  intro Q R pool m
  have ends : (m.exec m.start oneBack).map (fun s => (s.stages.inFlight.map Sqe.userData,
      s.checkout.held, (circulating s.stages).map UInt64.toUInt32)) = some ([1], [], {1}) := by
    decide
  obtain ⟨s, ran, shape⟩ := Option.map_eq_some_iff.mp ends
  simp only [Prod.mk.injEq] at shape
  obtain ⟨flight, held, way⟩ := shape
  have constructed : Pool.construct Pool.smallHost 2 4096 = .ok pool := rfl
  obtain ⟨free, threads, places, -⟩ := every_buffer_in_one_place constructed (by decide)
    (by decide) (by decide) (Machine.exec_reaches oneBack ran)
  have rest : tally id free = {0} := by
    rw [held, way, tally_nil, add_zero] at places
    exact add_right_cancel (places.trans (show _ = ({0} : Multiset UInt32) + {1} by decide))
  have one : free = [0] := by
    rw [tally, List.map_id] at rest
    exact Multiset.coe_eq_singleton.mp rest
  exact ⟨s, ran, flight, held, one ▸ threads⟩

/-! ## And back again -/

/-- The steps of the engine, of the kernel and of a client that only collects, each
to some purpose. -/
def collecting (s : System Q R entries) (command : Command) (s' : System Q R entries) : Prop :=
  match command with
  | .collect => useful s.stages .pop s'.stages
  | .engine c => useful s.stages c s'.stages
  | .pool _ | .submit _ => False

instance (s : System Q R entries) (command : Command) (s' : System Q R entries) :
    Decidable (collecting s command s') :=
  match command with
  | .collect => inferInstanceAs (Decidable (useful s.stages .pop s'.stages))
  | .engine c => inferInstanceAs (Decidable (useful s.stages c s'.stages))
  | .pool _ | .submit _ => .isFalse id

/-- Each is a useful step of the pipeline. -/
theorem stage_moved {command : Command} (moved : s.next pool cqEntries command = some s')
    (ok : collecting s command s') :
    ∃ c, s.stages.next pool cqEntries c = some s'.stages ∧ useful s.stages c s'.stages := by
  cases command with
  | pool call | submit req => cases ok
  | collect =>
    simp only [System.next] at moved
    obtain ⟨stages, stepped, rfl⟩ := Option.map_eq_some_iff.mp moved
    exact ⟨.pop, stepped, ok⟩
  | engine c =>
    simp only [System.next] at moved
    split at moved
    · obtain ⟨stages, stepped, rfl⟩ := Option.map_eq_some_iff.mp moved
      exact ⟨c, stepped, ok⟩
    · cases moved

/-- Every useful step of the pipeline is one of them. -/
theorem moved_of_stage {c : Pipeline.Command} {stages : Stages Q R entries}
    (stepped : s.stages.next pool cqEntries c = some stages) (purpose : useful s.stages c stages) :
    ∃ command s', s.next pool cqEntries command = some s' ∧ collecting s command s' := by
  by_cases pops : c = .pop
  · subst pops
    exact ⟨.collect, _, by rw [System.next, stepped, Option.map_some], purpose⟩
  · have engine : isEngine c = true := by
      cases c with
      | push req => cases purpose
      | pop => exact absurd rfl pops
      | drain | runDrain | consume | complete | harvest | runHarvest => rfl
    exact ⟨.engine c, { s with stages := stages }, by
      rw [System.next, if_pos engine, stepped, Option.map_some], purpose⟩

theorem run_collecting {commands : List Command} {bufferCount : ℕ}
    (follows : (machine pool cqEntries Q R entries bufferCount).Follows collecting s commands s') :
    ∃ steps, steps.length = commands.length ∧
      (Pipeline.machine Q R entries pool cqEntries).Follows useful s.stages steps s'.stages := by
  induction follows with
  | done s => exact ⟨[], rfl, .done _⟩
  | step moved ok later ih =>
    obtain ⟨c, stepped, purpose⟩ := stage_moved moved ok
    obtain ⟨steps, length, onward⟩ := ih
    exact ⟨c :: steps, by rw [List.length_cons, List.length_cons, length],
      .step stepped purpose onward⟩

theorem Done.circulating {stages : Stages Q R entries} (done : Done stages) :
    circulating stages = 0 := by
  simp only [BufferLifecycle.circulating, done.submitRing, done.drain, done.sq, done.inFlight,
    done.cq, done.harvest, done.completionRing, drainHand, harvestHand, List.drop_nil, tally_nil,
    add_zero]

/-- **Every buffer comes back.** From any state that the client, the engine and the
kernel have reached, once the client only collects: in whatever order the steps
are taken, there are at most fourteen for each buffer on its way and six more that
are to some purpose, and when there are none left every buffer is on the free list
or with the client. -/
theorem buffers_come_back {bufferCount : ℕ} (positive : 0 < bufferCount)
    (small : bufferCount < 2 ^ 32) (enough : bufferCount ≤ min entries R.capacity)
    (room : 0 < cqEntries.toNat) {commands : List Command}
    (reached : (machine pool cqEntries Q R entries bufferCount).Reachable Machine.anyStep s)
    (follows : (machine pool cqEntries Q R entries bufferCount).Follows collecting s commands s') :
    commands.length ≤ 14 * (circulating s.stages).card + 6 ∧
      ((∀ command s'', s'.next pool cqEntries command = some s'' → ¬ collecting s' command s'') →
        ∃ free, s'.checkout.list.Threads free ∧
          tally id free + tally id s'.checkout.held = tally id (FreeList.initial bufferCount)) := by
  obtain ⟨free, sound⟩ := run_sound positive small enough reached
  obtain ⟨steps, length, onward⟩ := run_collecting follows
  obtain ⟨reached', paid, -⟩ := run_due sound.reached onward
  obtain ⟨whole, intact⟩ := run_intact sound.reached
  have bound := due_le whole intact
  have out := congrArg Multiset.card (whole.tokens intact)
  constructor
  · simp only [circulating, Multiset.card_add, card_tally] at out ⊢
    omega
  · intro stuck
    have done : Done s'.stages := by
      by_contra more
      obtain ⟨c, stages, moved, purpose⟩ := useful_of_not_done (run_tidy reached') room more
      obtain ⟨command, s'', moved', ok⟩ := moved_of_stage moved purpose
      exact stuck command s'' moved' ok
    obtain ⟨free', sound'⟩ := run_sound positive small enough
      (reached.trans (follows.reaches.mono fun _ _ _ _ => trivial))
    have places := sound'.places
    rw [Done.circulating done, Multiset.map_zero, add_zero] at places
    exact ⟨free', sound'.threads, places⟩

/-- The second request of `oneBack` is answered and collected. -/
def bothBack : List Command :=
  [.engine (.complete 0 (-5)), .engine (.harvest 1), .engine .runHarvest, .engine .runHarvest,
    .engine .runHarvest, .engine .runHarvest, .collect]

theorem buffers_come_back_bothBack :
    let Q := SpscRing.fifo IoRequest ⟨2, by decide, by decide⟩
    let R := SpscRing.fifo IoCompletion ⟨2, by decide, by decide⟩
    let m := machine (Pool.build 2 4096 65536).toBufferPool 4 Q R 2 2
    ∃ s s', m.exec m.start oneBack = some s ∧ m.execWithin collecting s bothBack = some s' ∧
      bothBack.length ≤ 14 * (circulating s.stages).card + 6 ∧ s'.checkout.held = [1] := by
  intro Q R m
  have ends : ((m.exec m.start oneBack).bind fun s =>
      (m.execWithin collecting s bothBack).map fun s' => s'.checkout.held) = some [1] := by
    decide
  obtain ⟨s, first, later⟩ := Option.bind_eq_some_iff.mp ends
  obtain ⟨s', second, held⟩ := Option.map_eq_some_iff.mp later
  have back := buffers_come_back (by decide) (by decide) (by decide) (by decide)
    (Machine.exec_reaches oneBack first) (Machine.execWithin_follows bothBack second)
  exact ⟨s, s', first, second, back.1, held⟩

end Ringio.BufferLifecycle
