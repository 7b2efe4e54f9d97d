import Ringio.BenchmarkLoop
import Ringio.FreeListSequential
import Ringio.PipelineConservation

/-! The queue depth of the pipelined loop. Within one burst every slot has at most
one request out, so the rings never refuse and a slot's time is that of its only
request. A burst ends with every slot out, and the next one pushes them all
again. -/
namespace Ringio.Benchmark
open Pipeline SqpollEngine

/-- The slots pushed so far, accepted or not. -/
def Worker.pushes (s : Worker) : List UInt32 := s.attempts.map IoRequest.bufferIndex

/-- The slot's time is that of its latest push, and every request of the slot has
been answered: the completion in hand answers the push whose time it is. -/
structure TimesOwnRequest (s : Worker) (slot : UInt32) : Prop where
  own : s.pushes[s.submittedAt slot]? = some slot
  latest : slot ∉ s.pushes.drop (s.submittedAt slot + 1)
  answered : (s.stages.accepted.map IoRequest.bufferIndex).count slot =
    (s.stages.popped.map slotOf).count slot

/-- What the benchmark reports on: no slot has two requests out, no more than
`queue_depth` are, no two entries in flight name one buffer, a completion is
timed against its own request, and no push has been refused. -/
structure HoldsDepth (queueDepth : ℕ) (s : Worker) : Prop where
  onePerSlot : ∀ slot, (s.stages.accepted.map IoRequest.bufferIndex).count slot ≤
    (s.stages.popped.map slotOf).count slot + 1
  withinDepth : s.stages.accepted.length ≤ s.stages.popped.length + queueDepth
  ownBuffers : (((boundedSq kRingEntries).sqes s.stages.sq ++ s.stages.inFlight).map
    Sqe.bufIndex).Nodup
  timed : ∀ refilled completion, s.point = .refill refilled completion →
    TimesOwnRequest s (slotOf completion)
  everyPush : s.stages.accepted = s.attempts

variable {queueDepth : ℕ} {slotBuf : List UInt32} {bursts : ℕ} {pool : BufferPool}
  {cqEntries : UInt32} {s s' : Worker}

/-! ## Within one burst -/

/-- The slots with a request out: those the opening pushes have reached, all of
them from then on, except the one whose completion is in hand. -/
def outstanding (slotBuf : List UInt32) (begun : ℕ) : Point → List UInt32
  | .state => if begun = 0 then [] else slotBuf
  | .fill i => slotBuf.take i
  | .refill _ completion => slotBuf.erase (slotOf completion)
  | .draining | .deadline | .harvesting | .pops _ | .after _ => slotBuf

/-- The slot's time is that of its latest push, once it has been pushed. -/
def Latest (s : Worker) : Prop :=
  ∀ slot ∈ s.pushes, s.pushes[s.submittedAt slot]? = some slot ∧
    slot ∉ s.pushes.drop (s.submittedAt slot + 1)

/-- While no second burst has begun, the stages keep to their credit and each
slot that is out is out once. -/
structure Steady (slotBuf : List UInt32) (pool : BufferPool) (cqEntries : UInt32) (s : Worker) :
    Prop where
  reached : (Pipeline.machine submitQueue completions kRingEntries pool cqEntries).Reachable
    credited s.stages
  everyPush : s.stages.accepted = s.attempts
  token : ∀ req ∈ s.attempts, req.token.toUInt32 = req.bufferIndex
  balance : tally IoRequest.bufferIndex s.stages.accepted =
    tally slotOf s.stages.popped + ↑(outstanding slotBuf s.begun s.point)
  inHand : ∀ refilled completion, s.point = .refill refilled completion →
    slotOf completion ∈ slotBuf ∧ completion ∈ s.stages.popped
  begun : s.begun = 0 → s.point = .state
  latest : Latest s

theorem start_steady :
    Steady slotBuf pool cqEntries (machine queueDepth slotBuf bursts pool cqEntries).start where
  reached := .refl
  everyPush := rfl
  token := by simp [machine]
  balance := rfl
  inHand := by simp [machine]
  begun _ := rfl
  latest := by simp [Latest, Worker.pushes, machine]

/-- The completions not yet popped and the entries not yet completed are of slots
that are out, each of its own. -/
theorem Steady.waiting (steady : Steady slotBuf pool cqEntries s) :
    tally slotOf (completions.held s.stages.completionRing) +
      tally (UInt64.toUInt32 ∘ Sqe.userData)
        ((boundedSq kRingEntries).sqes s.stages.sq ++ s.stages.inFlight) ≤
      ↑(outstanding slotBuf s.begun s.point) := by
  obtain ⟨sound, intact⟩ := run_intact steady.reached
  have slots : tally (UInt64.toUInt32 ∘ IoRequest.token) s.stages.accepted =
      tally IoRequest.bufferIndex s.stages.accepted := by
    refine congrArg _ (List.map_congr_left fun req member => ?_)
    exact steady.token req (steady.everyPush ▸ member)
  have tokens := congrArg (Multiset.map UInt64.toUInt32) (sound.tokens intact)
  simp only [Multiset.map_add, map_tally] at tokens
  rw [slots, steady.balance, add_comm] at tokens
  rw [add_right_cancel tokens, tally_append]
  refine Multiset.le_iff_exists_add.mpr
    ⟨tally (UInt64.toUInt32 ∘ IoRequest.token) (submitQueue.held s.stages.submitRing) +
      tally (UInt64.toUInt32 ∘ IoRequest.token) (drainHand s.stages.drain) +
      tally (UInt64.toUInt32 ∘ Cqe.userData)
        (s.stages.cq.drop (entriesRead s.stages.harvest)) +
      tally (UInt64.toUInt32 ∘ IoCompletion.token) (harvestHand s.stages.harvest), ?_⟩
  rw [show slotOf = UInt64.toUInt32 ∘ IoCompletion.token from rfl]
  abel

theorem Steady.reach (steady : Steady slotBuf pool cqEntries s) {command : Pipeline.Command}
    {stages : Stages submitQueue completions kRingEntries}
    (moved : s.stages.next pool cqEntries command = some stages)
    (credit : credited s.stages command stages) :
    (Pipeline.machine submitQueue completions kRingEntries pool cqEntries).Reachable credited
      stages :=
  steady.reached.trans (.single ⟨command, moved, credit⟩)

theorem Steady.lengths (steady : Steady slotBuf pool cqEntries s) :
    s.stages.accepted.length =
      s.stages.popped.length + (outstanding slotBuf s.begun s.point).length := by
  have balance := congrArg Multiset.card steady.balance
  simpa only [Multiset.card_add, card_tally, Multiset.coe_card] using balance

/-- While some slot is not out, the submit ring has room. -/
theorem Steady.accepts (steady : Steady slotBuf pool cqEntries s)
    (room : (outstanding slotBuf s.begun s.point).length < 128) (req : IoRequest) :
    (submitQueue.tryPush s.stages.submitRing req).1 = true := by
  obtain ⟨sound, intact⟩ := run_intact steady.reached
  have total := sound.outstanding intact
  have lengths := steady.lengths
  have free : (submitQueue.held s.stages.submitRing).length < 128 := by omega
  exact (submitQueue.push_room req free).1

/-- The pushed slot was not out, and is afterwards. -/
private theorem pushes_outstanding (steady : Steady slotBuf pool cqEntries s) {slot : UInt32}
    {point : Point} (pushes : Pushes slotBuf s.point slot point) :
    (outstanding slotBuf s.begun s.point).length < slotBuf.length ∧
      (↑(outstanding slotBuf s.begun point) : Multiset UInt32) =
        ↑(outstanding slotBuf s.begun s.point) + {slot} := by
  have inHand := steady.inHand
  generalize s.point = origin at pushes inHand
  cases pushes with
  | @fill i _ entry =>
    obtain ⟨inside, rfl⟩ := List.getElem?_eq_some_iff.mp entry
    refine ⟨?_, ?_⟩
    · simp only [outstanding, List.length_take]
      omega
    · simp only [outstanding, List.take_add_one, entry, Option.toList_some]
      rw [← Multiset.coe_add, Multiset.coe_singleton]
  | refill refilled completion =>
    obtain ⟨member, -⟩ := inHand refilled completion rfl
    refine ⟨?_, ?_⟩
    · have positive := List.length_pos_of_mem member
      simp only [outstanding, List.length_erase_of_mem member]
      omega
    · simp only [outstanding]
      rw [Multiset.coe_eq_coe.mpr (List.perm_cons_erase member), ← Multiset.cons_coe, add_comm,
        Multiset.singleton_add]

/-- A push sets the time of its own slot and leaves the others' latest. -/
private theorem push_latest (latest : Latest s) (slot : UInt32) (offset : UInt64)
    (stages : Stages submitQueue completions kRingEntries) (point : Point) :
    Latest (s.pushed slot offset stages point) := by
  have size : s.pushes.length = s.attempts.length := List.length_map _
  have grown : (s.pushed slot offset stages point).pushes = s.pushes ++ [slot] := by
    simp [Worker.pushes, Worker.pushed, makeRequest]
  intro other member
  rw [grown] at member ⊢
  by_cases same : other = slot
  · subst same
    simp only [Worker.pushed, Function.update_self, ← size]
    simp
  · simp only [Worker.pushed, Function.update_of_ne same]
    have earlier : other ∈ s.pushes := by simpa [same] using member
    obtain ⟨own, last⟩ := latest other earlier
    obtain ⟨inside, -⟩ := List.getElem?_eq_some_iff.mp own
    rw [List.getElem?_append_left inside, List.drop_append_of_le_length inside]
    refine ⟨own, ?_⟩
    simpa [same] using last

private theorem push_steady (fits : slotBuf.length ≤ 128) (steady : Steady slotBuf pool cqEntries s)
    {slot : UInt32} {offset : UInt64} {point : Point}
    {stages : Stages submitQueue completions kRingEntries}
    (pushes : Pushes slotBuf s.point slot point)
    (moved : s.stages.next pool cqEntries (.push (makeRequest s.writeTurn offset slot)) =
      some stages) :
    Steady slotBuf pool cqEntries (s.pushed slot offset stages point) := by
  obtain ⟨short, after⟩ := pushes_outstanding steady pushes
  have lengths := steady.lengths
  have accepts := steady.accepts (short.trans_le fits) (makeRequest s.writeTurn offset slot)
  have credit : credited s.stages (.push (makeRequest s.writeTurn offset slot)) stages := by
    intro req same
    rw [show min kRingEntries completions.capacity = 128 from rfl]
    omega
  have reached := steady.reach moved credit
  cases moved
  refine ⟨reached, ?_, ?_, ?_, ?_, ?_, push_latest steady.latest slot offset _ point⟩
  · simp only [Worker.pushed, accepts, if_true, steady.everyPush]
  · intro req member
    rcases List.mem_append.mp member with earlier | last
    · exact steady.token req earlier
    · rw [List.mem_singleton.mp last]
      simp [makeRequest]
  · simp only [Worker.pushed, accepts, if_true, tally_append, tally_cons, tally_nil, add_zero]
    rw [steady.balance, after, add_assoc]
    rfl
  · exact fun refilled completion inside => absurd inside (pushes.ends refilled completion)
  · exact fun zero => absurd (steady.begun zero) pushes.starts

/-- A popped completion is of a slot that is out. -/
private theorem pop_steady (steady : Steady slotBuf pool cqEntries s) {refilled : ℕ}
    {completion : IoCompletion} {stages : Stages submitQueue completions kRingEntries}
    (inside : s.point = .pops refilled)
    (taken : (completions.tryPop s.stages.completionRing).1 = some completion)
    (moved : s.stages.next pool cqEntries .pop = some stages) :
    Steady slotBuf pool cqEntries { s with stages, point := .refill refilled completion } := by
  have reached := steady.reach moved fun _ other => by cases other
  cases moved
  have member : slotOf completion ∈ slotBuf := by
    have waiting := (Multiset.le_add_right _ _).trans steady.waiting
    rw [inside] at waiting
    refine Multiset.mem_coe.mp (Multiset.mem_of_le waiting ?_)
    cases contents : completions.held s.stages.completionRing with
    | nil =>
      rw [(completions.pop_nil contents).1] at taken
      cases taken
    | cons oldest rest =>
      rw [(completions.pop_cons contents).1] at taken
      cases taken
      simp
  have balance := steady.balance
  rw [inside] at balance
  refine ⟨reached, steady.everyPush, steady.token, ?_, ?_, ?_, steady.latest⟩
  · simp only [taken, Option.toList_some, tally_append, tally_cons, tally_nil, add_zero, balance,
      outstanding, add_assoc]
    rw [Multiset.coe_eq_coe.mpr (List.perm_cons_erase member), ← Multiset.cons_coe,
      Multiset.singleton_add]
  · intro _ _ same
    cases same
    exact ⟨member, by simp [taken]⟩
  · intro zero
    have outside := steady.begun zero
    rw [inside] at outside
    cases outside

/-- No other move of the thread takes a slot out or brings one back. -/
private theorem turns_outstanding (steady : Steady slotBuf pool cqEntries s) {point : Point}
    (turns : Turns slotBuf s.point point) :
    outstanding slotBuf s.begun point = outstanding slotBuf s.begun s.point := by
  have begun := steady.begun
  generalize s.point = origin at turns begun
  cases turns with
  | filled last => exact (List.take_of_length_le (List.getElem?_eq_none_iff.mp last)).symm
  | expired =>
    have later : s.begun ≠ 0 := fun zero => by cases begun zero
    simp only [outstanding, later, if_false]
  | stay | drained | harvest | harvested | emptied | again | idle => rfl

private theorem turn_steady (steady : Steady slotBuf pool cqEntries s) {point : Point}
    {stages : Stages submitQueue completions kRingEntries} (turns : Turns slotBuf s.point point)
    (undisturbed : Undisturbed pool cqEntries s.stages stages) :
    Steady slotBuf pool cqEntries { s with stages, point } := by
  obtain ⟨moved, accepted, popped⟩ := undisturbed
  refine ⟨?_, ?_, steady.token, ?_, ?_, ?_, steady.latest⟩
  · rcases moved with rfl | ⟨command, noPush, ran⟩
    · exact steady.reached
    · exact steady.reach ran fun req same => absurd same (noPush req)
  · exact accepted.trans steady.everyPush
  · simp only [accepted, popped, turns_outstanding steady turns]
    exact steady.balance
  · intro refilled completion inside
    rw [popped]
    exact steady.inHand refilled completion (turns.ends inside)
  · intro zero
    exact turns.starts (steady.begun zero)

/-- A step into the first burst or within it. -/
theorem step_steady (fits : slotBuf.length ≤ 128) (steady : Steady slotBuf pool cqEntries s)
    (moved : Moved slotBuf bursts pool cqEntries s s') (first : s'.begun ≤ 1) :
    Steady slotBuf pool cqEntries s' := by
  cases moved with
  | begin outside more =>
    have zero : s.begun = 0 := by
      simp only at first
      omega
    have balance := steady.balance
    rw [outside, zero] at balance
    exact ⟨steady.reached, steady.everyPush, steady.token, balance, by simp, by simp,
      steady.latest⟩
  | push offset pushes moved => exact push_steady fits steady pushes moved
  | pop inside taken moved => exact pop_steady steady inside taken moved
  | turn turns undisturbed => exact turn_steady steady turns undisturbed

theorem Moved.begun_le (moved : Moved slotBuf bursts pool cqEntries s s') : s.begun ≤ s'.begun := by
  cases moved with
  | begin => exact Nat.le_succ _
  | push | pop | turn => exact le_rfl

theorem Moved.within (moved : Moved slotBuf bursts pool cqEntries s s')
    (within : s.begun ≤ bursts) : s'.begun ≤ bursts := by
  cases moved with
  | begin outside more => exact more
  | push | pop | turn => exact within

/-- Every run, up to where its second burst begins. -/
theorem run_steady (fits : slotBuf.length ≤ 128)
    (reached : (machine queueDepth slotBuf bursts pool cqEntries).Reachable Machine.anyStep s)
    (first : s.begun ≤ 1) : Steady slotBuf pool cqEntries s := by
  refine reached.invariant (P := fun x => x.begun ≤ 1 → Steady slotBuf pool cqEntries x)
    (fun _ => start_steady) ?_ first
  intro before command after steady moved _ first
  have step := moved_of_next moved
  exact step_steady fits (steady (step.begun_le.trans first)) step first

/-- No more bursts begin than there are. -/
theorem run_within
    (reached : (machine queueDepth slotBuf bursts pool cqEntries).Reachable Machine.anyStep s) :
    s.begun ≤ bursts :=
  reached.invariant (P := fun x => x.begun ≤ bursts) (Nat.zero_le _) fun within moved _ =>
    (moved_of_next moved).within within

/-! ## What holds within one burst -/

theorem outstanding_sublist (slotBuf : List UInt32) (begun : ℕ) (point : Point) :
    (outstanding slotBuf begun point).Sublist slotBuf := by
  cases point with
  | state =>
    simp only [outstanding]
    split
    · exact List.nil_sublist _
    · exact List.Sublist.refl _
  | fill i => exact List.take_sublist i slotBuf
  | refill refilled completion => exact List.erase_sublist
  | draining | deadline | harvesting | pops | after => exact List.Sublist.refl _

/-- Requests of a slot are those answered and the one out, if it is. -/
theorem Steady.count (steady : Steady slotBuf pool cqEntries s) (slot : UInt32) :
    (s.stages.accepted.map IoRequest.bufferIndex).count slot =
      (s.stages.popped.map slotOf).count slot +
        (outstanding slotBuf s.begun s.point).count slot := by
  have balance := congrArg (Multiset.count slot) steady.balance
  simpa only [tally, Multiset.count_add, Multiset.coe_count] using balance

/-- The buffer index of an entry is its slot cut to 16 bits. -/
private theorem Steady.bufIndex_eq (steady : Steady slotBuf pool cqEntries s) {sqe : Sqe}
    (member : sqe ∈ (boundedSq kRingEntries).sqes s.stages.sq ++ s.stages.inFlight) :
    sqe.bufIndex = sqe.userData.toUInt32.toUInt16 := by
  obtain ⟨req, known, rfl⟩ := (run_traced steady.reached).sqes sqe member
  rw [steady.everyPush] at known
  simp only [translate, steady.token req known]

private theorem Steady.own_buffers (distinct : slotBuf.Nodup)
    (small : ∀ slot ∈ slotBuf, slot.toNat < 128) (steady : Steady slotBuf pool cqEntries s) :
    (((boundedSq kRingEntries).sqes s.stages.sq ++ s.stages.inFlight).map Sqe.bufIndex).Nodup := by
  have part := (Multiset.le_add_left _ _).trans steady.waiting
  rw [tally, Multiset.coe_le] at part
  have slots := part.trans (outstanding_sublist slotBuf s.begun s.point).subperm
  have cut : ((boundedSq kRingEntries).sqes s.stages.sq ++ s.stages.inFlight).map Sqe.bufIndex =
      (((boundedSq kRingEntries).sqes s.stages.sq ++ s.stages.inFlight).map
        (UInt64.toUInt32 ∘ Sqe.userData)).map UInt32.toUInt16 := by
    rw [List.map_map]
    exact List.map_congr_left fun sqe member => steady.bufIndex_eq member
  rw [cut]
  have once := Multiset.nodup_of_le (Multiset.coe_le.mpr slots) (Multiset.coe_nodup.mpr distinct)
  refine List.Nodup.map_on ?_ (Multiset.coe_nodup.mp once)
  intro slot member slot' member' same
  have low := small slot (slots.subset member)
  have low' := small slot' (slots.subset member')
  have values := congrArg UInt16.toNat same
  simp only [UInt32.toNat_toUInt16] at values
  refine UInt32.toNat_inj.mp ?_
  omega

private theorem Steady.timed (distinct : slotBuf.Nodup) (steady : Steady slotBuf pool cqEntries s)
    {refilled : ℕ} {completion : IoCompletion} (inside : s.point = .refill refilled completion) :
    TimesOwnRequest s (slotOf completion) := by
  obtain ⟨member, popped⟩ := steady.inHand refilled completion inside
  have answered := steady.count (slotOf completion)
  rw [inside, outstanding, List.count_eq_zero.mpr distinct.not_mem_erase, add_zero] at answered
  have pushed : slotOf completion ∈ s.pushes := by
    rw [Worker.pushes, ← steady.everyPush, ← List.count_pos_iff, answered, List.count_pos_iff]
    exact List.mem_map_of_mem popped
  obtain ⟨own, latest⟩ := steady.latest _ pushed
  exact ⟨own, latest, answered⟩

theorem Steady.holdsDepth (distinct : slotBuf.Nodup) (small : ∀ slot ∈ slotBuf, slot.toNat < 128)
    (steady : Steady slotBuf pool cqEntries s) : HoldsDepth slotBuf.length s where
  onePerSlot slot := by
    rw [steady.count slot]
    have once := List.nodup_iff_count_le_one.mp
      ((outstanding_sublist slotBuf s.begun s.point).nodup distinct) slot
    exact Nat.add_le_add_left once _
  withinDepth := by
    rw [steady.lengths]
    exact Nat.add_le_add_left (outstanding_sublist ..).length_le _
  ownBuffers := steady.own_buffers distinct small
  timed _ _ inside := steady.timed distinct inside
  everyPush := steady.everyPush

/-! ## The second burst -/

/-- With nobody else moving, a drain call returns. -/
private theorem drain_reaches (queueDepth : ℕ) (slotBuf : List UInt32) (bursts : ℕ)
    (pool : BufferPool) (cqEntries : UInt32) {maxBatch : ℕ} {point : DrainPoint} (s : Worker)
    (inside : s.point = .draining) (call : s.stages.drain = some (maxBatch, point)) :
    ∃ s', (machine queueDepth slotBuf bursts pool cqEntries).Reaches Machine.anyStep s s' ∧
      s'.point = .deadline ∧ s'.begun = s.begun := by
  induction rank : drainRank maxBatch point using Nat.strong_induction_on
    generalizing s point with
  | _ n ih =>
    obtain ⟨stages, ran, left⟩ : ∃ stages, s.stages.next pool cqEntries .runDrain = some stages ∧
        stages.drain = onward maxBatch (drainStep submitQueue (boundedSq kRingEntries) pool maxBatch
          s.stages.submitRing s.stages.sq point).2 := by
      simp [Stages.next, call]
    have moved : (machine queueDepth slotBuf bursts pool cqEntries).next s (.run false 0) =
        some { s with stages, point := if stages.drain.isNone then .deadline else .draining } := by
      simp [machine, Worker.next, Worker.run, inside, Worker.move, ran]
    cases step : (drainStep submitQueue (boundedSq kRingEntries) pool maxBatch
        s.stages.submitRing s.stages.sq point).2 with
    | returned submitted =>
      rw [step, onward] at left
      simp only [left, Option.isNone_none, if_true] at moved
      exact ⟨_, .single ⟨_, moved, trivial⟩, rfl, rfl⟩
    | running point' =>
      rw [step, onward] at left
      simp only [left, Option.isNone_some, Bool.false_eq_true, if_false] at moved
      have shorter := drainStep_rank step
      obtain ⟨s', onward, ended, same⟩ :=
        ih _ (rank ▸ shorter) { s with stages, point := .draining } rfl left rfl
      exact ⟨s', .head ⟨_, moved, trivial⟩ onward, ended, same⟩

/-- The first burst pushes its slots in turn. -/
private theorem fill_reaches (queueDepth : ℕ) (pool : BufferPool) (cqEntries : UInt32)
    (atLeastOne : 0 < bursts) (i : ℕ) (within : i ≤ slotBuf.length) :
    ∃ s, (machine queueDepth slotBuf bursts pool cqEntries).Reachable Machine.anyStep s ∧
      s.point = .fill i ∧ s.begun = 1 ∧ s.stages.drain = none := by
  induction i with
  | zero =>
    have moved : (machine queueDepth slotBuf bursts pool cqEntries).next
        (machine queueDepth slotBuf bursts pool cqEntries).start (.run false 0) =
        some { (machine queueDepth slotBuf bursts pool cqEntries).start with
          begun := 1, point := .fill 0 } := by
      simp [machine, Worker.next, Worker.run, atLeastOne]
    exact ⟨_, .single ⟨_, moved, trivial⟩, rfl, rfl, rfl⟩
  | succ i ih =>
    obtain ⟨s, reached, inside, first, idle⟩ := ih (Nat.le_of_succ_le within)
    have entry := List.getElem?_eq_getElem within
    have moved : (machine queueDepth slotBuf bursts pool cqEntries).next s (.run false 0) =
        s.push pool cqEntries slotBuf[i] 0 (.fill (i + 1)) := by
      simp [machine, Worker.next, Worker.run, inside, entry]
    exact ⟨_, reached.trans (.single ⟨_, moved, trivial⟩), rfl, first, idle⟩

/-- The first burst can end, its deadline falling right after its first call. -/
private theorem first_burst_ends (queueDepth : ℕ) (slotBuf : List UInt32) (pool : BufferPool)
    (cqEntries : UInt32) (atLeastOne : 0 < bursts) :
    ∃ s, (machine queueDepth slotBuf bursts pool cqEntries).Reachable Machine.anyStep s ∧
      s.point = .state ∧ s.begun = 1 := by
  obtain ⟨s, reached, inside, first, idle⟩ :=
    fill_reaches queueDepth pool cqEntries atLeastOne slotBuf.length le_rfl
  have called : (machine queueDepth slotBuf bursts pool cqEntries).next s (.run false 0) =
      some { s with
        stages := { s.stages with drain := some (queueDepth, .test 0) }
        point := .draining } := by
    simp [machine, Worker.next, Worker.run, inside, Worker.move, Stages.next, idle]
  obtain ⟨s', drained, waits, same⟩ :=
    drain_reaches queueDepth slotBuf bursts pool cqEntries { s with
      stages := { s.stages with drain := some (queueDepth, .test 0) }
      point := .draining } rfl rfl
  have expired : (machine queueDepth slotBuf bursts pool cqEntries).next s' (.run true 0) =
      some { s' with point := .state } := by
    simp [machine, Worker.next, Worker.run, waits]
  refine ⟨{ s' with point := .state }, ?_, rfl, same.trans first⟩
  exact reached.trans (.head ⟨_, called, trivial⟩ (drained.tail ⟨_, expired, trivial⟩))

/-- The first push of a second burst is refused or takes a slot out twice. -/
theorem second_burst_fails (queueDepth : ℕ) (fits : slotBuf.length ≤ 128) (nonempty : slotBuf ≠ [])
    (more : 1 < bursts) (pool : BufferPool) (cqEntries : UInt32) :
    ∃ s, (machine queueDepth slotBuf bursts pool cqEntries).Reachable Machine.anyStep s ∧
      ¬HoldsDepth queueDepth s := by
  obtain ⟨s, reached, outside, first⟩ :=
    first_burst_ends queueDepth slotBuf pool cqEntries (Nat.zero_lt_of_lt more)
  have steady := run_steady fits reached first.le
  obtain ⟨slot, rest, rfl⟩ := List.exists_cons_of_ne_nil nonempty
  have begins : (machine queueDepth (slot :: rest) bursts pool cqEntries).next s (.run false 0) =
      some { s with begun := 2, point := .fill 0 } := by
    simp [machine, Worker.next, Worker.run, outside, first, more]
  have pushed : (machine queueDepth (slot :: rest) bursts pool cqEntries).next
      { s with begun := 2, point := .fill 0 } (.run false 0) =
      Worker.push pool cqEntries { s with begun := 2, point := .fill 0 } slot 0 (.fill 1) := rfl
  refine ⟨_, reached.trans (.head ⟨_, begins, trivial⟩ (.single ⟨_, pushed, trivial⟩)), ?_⟩
  intro holds
  have every := holds.everyPush
  have once := holds.onePerSlot slot
  rw [every] at once
  have out := steady.count slot
  rw [outside, first, steady.everyPush] at out
  simp only [Worker.pushed, List.map_append, List.map_cons, List.map_nil, makeRequest,
    List.count_append, outstanding, one_ne_zero, if_false, List.count_cons_self] at once out
  omega

/-- The slots of a fresh pool. -/
private theorem acquired_slots {spurious : List ℕ} {left : FreeList} (positive : 1 ≤ queueDepth)
    (fits : queueDepth ≤ 128) (all : spurious.length = queueDepth)
    (acquired : (FreeList.new queueDepth).acquires spurious = some (slotBuf, left)) :
    slotBuf = FreeList.initial queueDepth := by
  have threads := FreeList.new_threads positive (show queueDepth < 2 ^ 32 by omega)
  obtain ⟨last, returned⟩ := FreeList.acquires_threads threads spurious
    (all.trans (FreeList.length_initial queueDepth).symm)
  rw [returned] at acquired
  cases acquired
  rfl

/-- **The loop holds its queue depth in every state of every run exactly when it
has at most one burst.** The slots are those a fresh pool of `queue_depth` buffers
hands out, whatever its exchanges do; the deadline falls anywhere, the offsets
are any, and the kernel consumes and completes in any order. -/
theorem holds_depth_iff {spurious : List ℕ} {left : FreeList} (positive : 1 ≤ queueDepth)
    (fits : queueDepth ≤ 128) (all : spurious.length = queueDepth)
    (acquired : (FreeList.new queueDepth).acquires spurious = some (slotBuf, left))
    (bursts : ℕ) (pool : BufferPool) (cqEntries : UInt32) :
    (∀ s, (machine queueDepth slotBuf bursts pool cqEntries).Reachable Machine.anyStep s →
      HoldsDepth queueDepth s) ↔ bursts ≤ 1 := by
  cases acquired_slots positive fits all acquired
  have size := FreeList.length_initial queueDepth
  constructor
  · intro holds
    by_contra more
    have nonempty : FreeList.initial queueDepth ≠ [] := List.ne_nil_of_length_pos (by omega)
    obtain ⟨s, reached, fails⟩ := second_burst_fails queueDepth (size.trans_le fits) nonempty
      (Nat.lt_of_not_le more) pool cqEntries
    exact fails (holds s reached)
  · intro single s reached
    have steady := run_steady (size.trans_le fits) reached ((run_within reached).trans single)
    have distinct := FreeList.initial_nodup (show queueDepth ≤ 2 ^ 32 by omega)
    have small (slot : UInt32) (member : slot ∈ FreeList.initial queueDepth) : slot.toNat < 128 :=
      (FreeList.mem_initial.mp member).trans_le fits
    have holds := steady.holdsDepth distinct small
    rwa [size] at holds

/-- Two buffers: one burst holds the depth, a second one does not. -/
theorem holds_depth_iff_two :
    (∀ s, (machine 2 [1, 0] 1 ⟨0, 4096⟩ 512).Reachable Machine.anyStep s → HoldsDepth 2 s) ∧
    ¬∀ s, (machine 2 [1, 0] 2 ⟨0, 4096⟩ 512).Reachable Machine.anyStep s → HoldsDepth 2 s := by
  obtain ⟨left, acquired⟩ : ∃ left, (FreeList.new 2).acquires [0, 3] = some ([1, 0], left) :=
    ⟨_, rfl⟩
  have all : ([0, 3] : List ℕ).length = 2 := rfl
  have exact_ (bursts : ℕ) :=
    holds_depth_iff (by decide) (by decide) all acquired bursts ⟨0, 4096⟩ 512
  exact ⟨(exact_ 1).mpr le_rfl, fun holds => absurd ((exact_ 2).mp holds) (by decide)⟩

/-- A burst of one slot whose deadline falls right after its first call, and the
first push of the next. -/
def pushedAgain : List Command := List.replicate 7 (.run false 0) ++ [.run true 0] ++
  List.replicate 2 (.run false 0)

/-- The slot is out twice: its buffer is in flight and is pushed again. -/
theorem second_burst_pushes_again :
    (∃ left, (FreeList.new 1).acquires [0] = some ([0], left)) ∧
    ∃ s, (machine 1 [0] 2 ⟨0, 4096⟩ 512).Reachable Machine.anyStep s ∧
      s.stages.accepted.map IoRequest.bufferIndex = [0, 0] ∧ s.stages.popped = [] ∧
      ¬HoldsDepth 1 s := by
  have ran : ((machine 1 [0] 2 ⟨0, 4096⟩ 512).exec (machine 1 [0] 2 ⟨0, 4096⟩ 512).start
      pushedAgain).map (fun s => (s.stages.accepted.map IoRequest.bufferIndex, s.stages.popped)) =
      some ([0, 0], []) := by
    decide
  obtain ⟨s, ended, read⟩ := Option.map_eq_some_iff.mp ran
  obtain ⟨accepted, popped⟩ : _ ∧ _ := by simpa only [Prod.mk.injEq] using read
  refine ⟨⟨_, rfl⟩, s, Machine.exec_reaches pushedAgain ended, accepted, popped, fun holds => ?_⟩
  have once := holds.onePerSlot 0
  rw [accepted, popped] at once
  exact absurd once (by decide)

end Ringio.Benchmark
