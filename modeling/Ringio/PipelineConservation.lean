import Mathlib.Algebra.Order.Group.Multiset
import Mathlib.Tactic.Abel
import Ringio.Pipeline
import Ringio.SpscRing

/-! Nothing is made up on the way: whatever the parties do, what is in the stages
together with what was let go of is what went in. A client that keeps to a
credit of what both rings can hold makes the engine let go of nothing. -/
namespace Ringio.Pipeline
open BoundedFifo SqpollEngine

/-- What the elements of a list read as, each as often as it occurs. -/
def tally {α β : Type} (f : α → β) (list : List α) : Multiset β := ↑(list.map f)

@[simp] theorem tally_nil {α β : Type} (f : α → β) : tally f [] = 0 := rfl

@[simp] theorem tally_cons {α β : Type} (f : α → β) (a : α) (list : List α) :
    tally f (a :: list) = {f a} + tally f list := by
  simp [tally, Multiset.singleton_add]

@[simp] theorem tally_append {α β : Type} (f : α → β) (a b : List α) :
    tally f (a ++ b) = tally f a + tally f b := by
  simp [tally]

@[simp] theorem card_tally {α β : Type} (f : α → β) (list : List α) :
    (tally f list).card = list.length := by
  simp [tally]

theorem map_tally {α β γ : Type} (g : β → γ) (f : α → β) (list : List α) :
    (tally f list).map g = tally (g ∘ f) list := by
  simp [tally]

theorem tally_perm {α β : Type} (f : α → β) {a b : List α} (moved : a.Perm b) :
    tally f a = tally f b :=
  Multiset.coe_eq_coe.mpr (moved.map f)

variable {Q : Queue IoRequest} {R : Queue IoCompletion} {entries : ℕ} {pool : BufferPool}
  {cqEntries : UInt32} {s s' : Stages Q R entries}

/-! ## One step of each call -/

/-- A step of `drain_and_submit` moves a request along or lets go of it. -/
theorem drainStep_balance (pool : BufferPool) (maxBatch : ℕ) (queue : Q.State)
    (sq : BoundedSq entries) (point : DrainPoint) :
    let step := drainStep Q (boundedSq entries) pool maxBatch queue sq point
    tally IoRequest.token (Q.held queue ++ drainHand (some (maxBatch, point))) +
        tally Sqe.userData ((boundedSq entries).sqes sq) =
      tally IoRequest.token (Q.held step.1.1 ++ drainHand (onward maxBatch step.2)) +
        tally Sqe.userData ((boundedSq entries).sqes step.1.2) +
        tally IoRequest.token (missed pool sq point) := by
  cases point with
  | test submitted =>
    by_cases ended : maxBatch ≤ submitted ∨ Q.held queue = []
    · obtain ⟨queue', step, left⟩ := drainStep_stop (U := boundedSq entries) pool sq ended
      simp [step, onward, drainHand, missed, left]
    · rw [not_or, Nat.not_le] at ended
      obtain ⟨req, rest, contents⟩ := List.exists_cons_of_ne_nil ended.2
      obtain ⟨queue', step, left⟩ :=
        drainStep_pop (U := boundedSq entries) pool sq ended.1 contents
      simp only [step, onward, drainHand, missed, contents, left, tally_cons, tally_append,
        tally_nil]
      abel
  | reserve submitted req =>
    simp only [drainStep, missed]
    cases filled : (boundedSq entries).fill sq (translate pool req) with
    | none =>
      simp only [onward, drainHand, tally_cons, tally_append, tally_nil, if_true]
      abel
    | some sq' =>
      have appended := ((boundedSq entries).fill_some sq _ sq' filled).2
      simp only [onward, drainHand, appended, tally_cons, tally_append, tally_nil, reduceCtorEq,
        if_false, translate]
      abel
  | submit submitted =>
    obtain ⟨sq', step, same⟩ :=
      drainStep_submit (Q := Q) (U := boundedSq entries) pool maxBatch queue sq submitted
    simp [step, onward, drainHand, missed, same]

/-- A step of `harvest_completions` moves a completion along or lets go of it. -/
theorem harvestStep_balance (maxBatch : ℕ) (out : R.State) (cq : List Cqe) (point : HarvestPoint)
    (small : cq.length < 2 ^ 32) (read : entriesRead (some (maxBatch, point)) ≤ cq.length) :
    let step := harvestStep R maxBatch out cq point
    tally Cqe.toCompletion (cq.drop (entriesRead (some (maxBatch, point)))) +
        tally id (harvestHand (some (maxBatch, point)) ++ R.held out) =
      tally Cqe.toCompletion (step.1.2.drop (entriesRead (onward maxBatch step.2))) +
        tally id (harvestHand (onward maxBatch step.2) ++ R.held step.1.1) +
        tally id (refused out point) := by
  cases point with
  | test walked delivered =>
    simp only [harvestStep, refused]
    split
    · simp [onward, entriesRead, harvestHand]
    · rename_i cqe found
      obtain ⟨inside, rfl⟩ := List.getElem?_eq_some_iff.mp found
      split
      · simp [onward, entriesRead, harvestHand]
      · simp only [onward, entriesRead, harvestHand, tally_nil, tally_cons, tally_append]
        rw [List.drop_eq_getElem_cons inside, tally_cons]
        simp only [id_eq]
        abel
  | deliver walked delivered completion =>
    simp only [harvestStep, refused]
    rcases Nat.lt_or_ge (R.held out).length R.capacity with room | full
    · obtain ⟨accepts, contents⟩ := R.push_room completion room
      rw [← Prod.mk.eta (p := R.tryPush out completion), accepts]
      simp only [onward, entriesRead, harvestHand, contents, tally_nil, tally_cons, tally_append,
        if_true]
      abel
    · obtain ⟨refuses, contents⟩ := R.push_full completion full
      rw [← Prod.mk.eta (p := R.tryPush out completion), refuses]
      simp only [onward, entriesRead, harvestHand, contents, tally_nil, tally_cons, tally_append,
        Bool.false_eq_true, if_false]
      abel
  | advance walked delivered =>
    simp only [entriesRead] at read
    have exact_ : (UInt32.ofNat walked).toNat = walked := by
      rw [UInt32.toNat_ofNat', Nat.mod_eq_of_lt (by omega)]
    simp only [harvestStep, refused, onward, entriesRead, harvestHand, exact_]
    split
    · simp
    · rename_i none
      simp [show walked = 0 by omega]

/-- It never reads past the entries there are. -/
theorem harvestStep_read (maxBatch : ℕ) (out : R.State) (cq : List Cqe) (point : HarvestPoint)
    (read : entriesRead (some (maxBatch, point)) ≤ cq.length) :
    let step := harvestStep R maxBatch out cq point
    entriesRead (onward maxBatch step.2) ≤ step.1.2.length ∧ step.1.2.length ≤ cq.length := by
  cases point with
  | test walked delivered =>
    simp only [harvestStep]
    split
    · exact ⟨read, le_rfl⟩
    · rename_i cqe found
      obtain ⟨inside, rfl⟩ := List.getElem?_eq_some_iff.mp found
      split
      · exact ⟨read, le_rfl⟩
      · exact ⟨inside, le_rfl⟩
  | deliver walked delivered completion =>
    simp only [harvestStep]
    split
    · exact ⟨read, le_rfl⟩
    · exact ⟨read, le_rfl⟩
  | advance walked delivered =>
    simp only [harvestStep]
    refine ⟨Nat.zero_le _, ?_⟩
    split
    · rw [List.length_drop]
      exact Nat.sub_le _ _
    · exact le_rfl

/-! ## Every stage at once -/

/-- Where the accepted tokens are, and where the posted entries have gone. -/
structure Sound (cqEntries : UInt32) (s : Stages Q R entries) : Prop where
  cqFits : s.cq.length ≤ cqEntries.toNat
  read : entriesRead s.harvest ≤ s.cq.length
  requests : tally IoRequest.token s.accepted =
    tally IoRequest.token (Q.held s.submitRing ++ drainHand s.drain) +
      tally Sqe.userData ((boundedSq entries).sqes s.sq) + tally Sqe.userData s.inFlight +
      tally Cqe.userData s.posted + tally IoRequest.token s.lost
  completions : tally Cqe.toCompletion s.posted =
    tally Cqe.toCompletion (s.cq.drop (entriesRead s.harvest)) +
      tally id (harvestHand s.harvest ++ R.held s.completionRing) + tally id s.popped +
      tally id s.dropped

private theorem push_sound (sound : Sound cqEntries s) (req : IoRequest) :
    Sound cqEntries { s with
      submitRing := (Q.tryPush s.submitRing req).2
      accepted := if (Q.tryPush s.submitRing req).1 then s.accepted ++ [req] else s.accepted } := by
  refine ⟨sound.cqFits, sound.read, ?_, sound.completions⟩
  have requests := sound.requests
  rcases Nat.lt_or_ge (Q.held s.submitRing).length Q.capacity with room | full
  · obtain ⟨accepts, contents⟩ := Q.push_room req room
    simp only [accepts, contents, if_true, tally_append, requests]
    abel
  · obtain ⟨refuses, contents⟩ := Q.push_full req full
    simp only [refuses, contents, Bool.false_eq_true, if_false, requests]

private theorem pop_sound (sound : Sound cqEntries s) :
    Sound cqEntries { s with
      completionRing := (R.tryPop s.completionRing).2
      popped := s.popped ++ (R.tryPop s.completionRing).1.toList } := by
  refine ⟨sound.cqFits, sound.read, sound.requests, ?_⟩
  have completions := sound.completions
  cases contents : R.held s.completionRing with
  | nil =>
    obtain ⟨none, left⟩ := R.pop_nil contents
    simp only [none, left, contents, completions, Option.toList_none, List.append_nil]
  | cons oldest rest =>
    obtain ⟨popped, left⟩ := R.pop_cons contents
    simp only [popped, left, contents, completions, Option.toList_some, tally_append, tally_cons,
      tally_nil]
    abel

private theorem runDrain_sound (sound : Sound cqEntries s) {maxBatch : ℕ} {point : DrainPoint}
    (inside : s.drain = some (maxBatch, point)) :
    let step := drainStep Q (boundedSq entries) pool maxBatch s.submitRing s.sq point
    Sound cqEntries { s with
      submitRing := step.1.1, sq := step.1.2, drain := onward maxBatch step.2
      lost := s.lost ++ missed pool s.sq point } := by
  refine ⟨sound.cqFits, sound.read, ?_, sound.completions⟩
  have requests := sound.requests
  have balance := drainStep_balance pool maxBatch s.submitRing s.sq point
  simp only at balance
  rw [inside, balance] at requests
  simp only [tally_append] at requests ⊢
  rw [requests]
  abel

private theorem runHarvest_sound (sound : Sound cqEntries s) {maxBatch : ℕ} {point : HarvestPoint}
    (inside : s.harvest = some (maxBatch, point)) :
    let step := harvestStep R maxBatch s.completionRing s.cq point
    Sound cqEntries { s with
      completionRing := step.1.1, cq := step.1.2, harvest := onward maxBatch step.2
      dropped := s.dropped ++ refused s.completionRing point } := by
  have read := sound.read
  rw [inside] at read
  obtain ⟨still, shorter⟩ := harvestStep_read maxBatch s.completionRing s.cq point read
  refine ⟨shorter.trans sound.cqFits, still, sound.requests, ?_⟩
  have completions := sound.completions
  have small : s.cq.length < 2 ^ 32 := sound.cqFits.trans_lt cqEntries.toNat_lt
  have balance := harvestStep_balance maxBatch s.completionRing s.cq point small read
  simp only at balance
  rw [inside, balance] at completions
  simp only [tally_append] at completions ⊢
  rw [completions]
  abel

private theorem complete_sound (sound : Sound cqEntries s) {position : ℕ} {sqe : Sqe} (res : Int32)
    (found : s.inFlight[position]? = some sqe) (room : s.cq.length < cqEntries.toNat) :
    Sound cqEntries { s with
      inFlight := s.inFlight.eraseIdx position
      cq := s.cq ++ [⟨sqe.userData, res⟩]
      posted := s.posted ++ [⟨sqe.userData, res⟩] } := by
  obtain ⟨inside, rfl⟩ := List.getElem?_eq_some_iff.mp found
  have split := tally_perm Sqe.userData (List.getElem_cons_eraseIdx_perm inside)
  rw [tally_cons] at split
  have requests := sound.requests
  have completions := sound.completions
  refine ⟨?_, ?_, ?_, ?_⟩
  · rw [List.length_append]
    exact room
  · rw [List.length_append]
    exact Nat.le_succ_of_le sound.read
  · rw [requests, ← split]
    simp only [tally_append, tally_cons, tally_nil]
    abel
  · simp only [List.drop_append_of_le_length sound.read, tally_append] at completions ⊢
    rw [completions]
    abel

theorem step_sound {command : Command} (sound : Sound cqEntries s)
    (moved : Moved pool cqEntries s command s') : Sound cqEntries s' := by
  cases moved with
  | push req => exact push_sound sound req
  | pop => exact pop_sound sound
  | drain maxBatch idle =>
    refine ⟨sound.cqFits, sound.read, ?_, sound.completions⟩
    have requests := sound.requests
    rw [idle] at requests
    exact requests
  | runDrain inside ran =>
    subst ran
    exact runDrain_sound sound inside
  | consume taken fits =>
    refine ⟨sound.cqFits, sound.read, ?_, sound.completions⟩
    have requests := sound.requests
    simp only [boundedSq, taken, tally_append, tally_cons, tally_nil] at requests ⊢
    rw [requests]
    abel
  | complete res found room => exact complete_sound sound res found room
  | harvest maxBatch idle =>
    have completions := sound.completions
    rw [idle] at completions
    exact ⟨sound.cqFits, Nat.zero_le _, sound.requests, completions⟩
  | runHarvest inside ran =>
    subst ran
    exact runHarvest_sound sound inside

theorem start_sound : Sound cqEntries (machine Q R entries pool cqEntries).start := by
  refine ⟨Nat.zero_le _, le_rfl, ?_, ?_⟩
  · simp [machine, Q.new_held, drainHand, boundedSq]
  · simp [machine, R.new_held, harvestHand, entriesRead]

/-- Every run, whatever the sizes and the batches. -/
theorem run_sound {allowed : Stages Q R entries → Command → Stages Q R entries → Prop}
    (reached : (machine Q R entries pool cqEntries).Reachable allowed s) : Sound cqEntries s :=
  reached.invariant start_sound fun sound moved _ => step_sound sound (moved_of_next moved)

/-! ## Whose entry it is -/

/-- Every request on its way to the kernel was accepted, and every entry there or
in flight is the translation of one that was. -/
structure Traced (pool : BufferPool) (s : Stages Q R entries) : Prop where
  requests : ∀ req ∈ Q.held s.submitRing ++ drainHand s.drain, req ∈ s.accepted
  sqes : ∀ sqe ∈ (boundedSq entries).sqes s.sq ++ s.inFlight,
    ∃ req ∈ s.accepted, sqe = translate pool req

private theorem push_traced (traced : Traced pool s) (req : IoRequest) :
    Traced pool { s with
      submitRing := (Q.tryPush s.submitRing req).2
      accepted := if (Q.tryPush s.submitRing req).1 then s.accepted ++ [req] else s.accepted } := by
  rcases Nat.lt_or_ge (Q.held s.submitRing).length Q.capacity with room | full
  · obtain ⟨accepts, contents⟩ := Q.push_room req room
    refine ⟨fun other member => ?_, fun sqe member => ?_⟩
    · simp only [contents, accepts, if_true, List.mem_append] at member ⊢
      rcases member with (member | last) | member
      · exact .inl (traced.requests other (List.mem_append_left _ member))
      · exact .inr last
      · exact .inl (traced.requests other (List.mem_append_right _ member))
    · obtain ⟨source, known, same⟩ := traced.sqes sqe member
      simp only [accepts, if_true]
      exact ⟨source, List.mem_append_left _ known, same⟩
  · obtain ⟨refuses, contents⟩ := Q.push_full req full
    refine ⟨fun other member => ?_, fun sqe member => ?_⟩
    · simp only [contents, refuses, Bool.false_eq_true, if_false] at member ⊢
      exact traced.requests other member
    · simp only [refuses, Bool.false_eq_true, if_false]
      exact traced.sqes sqe member

private theorem runDrain_traced (traced : Traced pool s) {maxBatch : ℕ} {point : DrainPoint}
    (inside : s.drain = some (maxBatch, point)) :
    let step := drainStep Q (boundedSq entries) pool maxBatch s.submitRing s.sq point
    Traced pool { s with
      submitRing := step.1.1, sq := step.1.2, drain := onward maxBatch step.2
      lost := s.lost ++ missed pool s.sq point } := by
  obtain ⟨requests, sqes⟩ := traced
  rw [inside] at requests
  cases point with
  | test submitted =>
    by_cases ended : maxBatch ≤ submitted ∨ Q.held s.submitRing = []
    · obtain ⟨queue', step, left⟩ := drainStep_stop (U := boundedSq entries) pool s.sq ended
      rw [step]
      refine ⟨fun req member => requests req ?_, sqes⟩
      simpa only [onward, drainHand, left] using member
    · rw [not_or, Nat.not_le] at ended
      obtain ⟨oldest, rest, contents⟩ := List.exists_cons_of_ne_nil ended.2
      obtain ⟨queue', step, left⟩ :=
        drainStep_pop (U := boundedSq entries) pool s.sq ended.1 contents
      rw [step]
      refine ⟨fun req member => requests req ?_, sqes⟩
      simp only [onward, drainHand, left, contents, List.append_nil, List.mem_append,
        List.mem_cons, List.not_mem_nil, or_false] at member ⊢
      exact member.symm
  | reserve submitted req =>
    have popped := requests req (List.mem_append_right _ (List.mem_singleton_self _))
    have rest (other : IoRequest) (member : other ∈ Q.held s.submitRing ++ []) :
        other ∈ s.accepted := by
      rw [List.append_nil] at member
      exact requests other (List.mem_append_left _ member)
    simp only [drainStep]
    cases filled : (boundedSq entries).fill s.sq (translate pool req) with
    | none => exact ⟨rest, sqes⟩
    | some sq' =>
      have appended := ((boundedSq entries).fill_some s.sq _ sq' filled).2
      refine ⟨rest, fun sqe member => ?_⟩
      rw [appended, List.append_assoc, List.mem_append, List.mem_append,
        List.mem_singleton] at member
      rcases member with earlier | rfl | flying
      · exact sqes sqe (List.mem_append_left _ earlier)
      · exact ⟨req, popped, rfl⟩
      · exact sqes sqe (List.mem_append_right _ flying)
  | submit submitted =>
    obtain ⟨sq', step, same⟩ :=
      drainStep_submit (Q := Q) (U := boundedSq entries) pool maxBatch s.submitRing s.sq submitted
    rw [step]
    refine ⟨requests, fun sqe member => sqes sqe ?_⟩
    rw [← same]
    exact member

theorem step_traced {command : Command} (traced : Traced pool s)
    (moved : Moved pool cqEntries s command s') : Traced pool s' := by
  cases moved with
  | push req => exact push_traced traced req
  | drain maxBatch idle =>
    refine ⟨fun req member => traced.requests req ?_, traced.sqes⟩
    rw [idle]
    exact member
  | runDrain inside ran =>
    subst ran
    exact runDrain_traced traced inside
  | consume taken fits =>
    refine ⟨traced.requests, fun sqe member => traced.sqes sqe ?_⟩
    simp only [boundedSq, taken, List.mem_append, List.mem_cons] at member ⊢
    tauto
  | complete res found room =>
    refine ⟨traced.requests, fun sqe member => traced.sqes sqe ?_⟩
    rcases List.mem_append.mp member with queued | flying
    · exact List.mem_append_left _ queued
    · exact List.mem_append_right _ (List.mem_of_mem_eraseIdx flying)
  | pop | harvest | runHarvest => exact ⟨traced.requests, traced.sqes⟩

theorem run_traced {allowed : Stages Q R entries → Command → Stages Q R entries → Prop}
    (reached : (machine Q R entries pool cqEntries).Reachable allowed s) : Traced pool s := by
  refine reached.invariant ⟨?_, ?_⟩ fun traced moved _ => step_traced traced (moved_of_next moved)
  · simp [machine, Q.new_held, drainHand]
  · simp [machine, boundedSq]

/-! ## Nothing duplicated, nothing made up -/

/-- **Every popped completion is a posted entry of its own, and every posted entry
answers an accepted request of its own**, over runs of any length, with rings
of any size and calls of any batch, whatever is dropped on the way. -/
theorem no_fabricated_completion
    (reached : (machine Q R entries pool cqEntries).Reachable Machine.anyStep s) :
    (∀ token, (s.popped.map IoCompletion.token).count token ≤
        (s.posted.map Cqe.userData).count token ∧
      (s.posted.map Cqe.userData).count token ≤
        (s.accepted.map IoRequest.token).count token) ∧
    s.popped.Subperm (s.posted.map Cqe.toCompletion) := by
  have sound := run_sound reached
  have distinct : s.popped.Subperm (s.posted.map Cqe.toCompletion) := by
    have part : tally id s.popped ≤ tally Cqe.toCompletion s.posted := by
      rw [sound.completions]
      exact (Multiset.le_add_left _ _).trans (Multiset.le_add_right _ _)
    rw [tally, tally, List.map_id] at part
    exact Multiset.coe_le.mp part
  have answers : (s.posted.map Cqe.userData).Subperm (s.accepted.map IoRequest.token) := by
    have part : tally Cqe.userData s.posted ≤ tally IoRequest.token s.accepted := by
      rw [sound.requests]
      exact (Multiset.le_add_left _ _).trans (Multiset.le_add_right _ _)
    exact Multiset.coe_le.mp part
  refine ⟨fun token => ⟨?_, answers.count_le token⟩, distinct⟩
  have tokens : (s.popped.map IoCompletion.token).Subperm (s.posted.map Cqe.userData) := by
    have mapped := Multiset.map_le_map (f := IoCompletion.token) (Multiset.coe_le.mpr distinct)
    rw [Multiset.map_coe, Multiset.map_coe, List.map_map] at mapped
    exact Multiset.coe_le.mp mapped
  exact tokens.count_le token

/-- Two requests go through in one drain call and one harvest call; the kernel
completes the second one first. -/
def overtaking : List Command :=
  [.push { (default : IoRequest) with token := 7 }, .push { (default : IoRequest) with token := 8 },
    .drain 2, .runDrain, .runDrain, .runDrain, .runDrain, .runDrain, .runDrain,
    .consume, .consume, .complete 1 512, .complete 0 (-5),
    .harvest 4, .runHarvest, .runHarvest, .runHarvest, .runHarvest, .runHarvest, .runHarvest,
    .pop, .pop]

/-- With a completion ring of one slot, the second completion read is dropped. -/
theorem no_fabricated_completion_oneSlot :
    let Q := SpscRing.fifo IoRequest ⟨2, by decide, by decide⟩
    let R := SpscRing.fifo IoCompletion ⟨1, by decide, by decide⟩
    ∃ s, (machine Q R 2 ⟨0, 4096⟩ 4).Reachable Machine.anyStep s ∧
      s.accepted.map IoRequest.token = [7, 8] ∧ s.posted = [⟨8, 512⟩, ⟨7, -5⟩] ∧
      s.popped = [⟨8, 512⟩] ∧ s.dropped = [⟨7, -5⟩] ∧
      s.popped.Subperm (s.posted.map Cqe.toCompletion) := by
  intro Q R
  have ran : ((machine Q R 2 ⟨0, 4096⟩ 4).exec (machine Q R 2 ⟨0, 4096⟩ 4).start overtaking).map
      (fun s => (s.accepted.map IoRequest.token, s.posted, s.popped, s.dropped)) =
      some ([7, 8], [⟨8, 512⟩, ⟨7, -5⟩], [⟨8, 512⟩], [⟨7, -5⟩]) := by
    decide
  obtain ⟨s, ended, read⟩ := Option.map_eq_some_iff.mp ran
  obtain ⟨accepted, posted, popped, dropped⟩ : _ ∧ _ ∧ _ ∧ _ := by
    simpa only [Prod.mk.injEq] using read
  have reached := Machine.exec_reaches overtaking ended
  exact ⟨s, reached, accepted, posted, popped, dropped, (no_fabricated_completion reached).2⟩

/-! ## Under a credit -/

/-- Runs in which the client starts a push only while fewer requests are out than
both the submission ring and the completion queue can hold. -/
def credited (s : Stages Q R entries) (command : Command) (_ : Stages Q R entries) : Prop :=
  ∀ req, command = .push req → s.accepted.length < s.popped.length + min entries R.capacity

instance (s : Stages Q R entries) (command : Command) (s' : Stages Q R entries) :
    Decidable (credited s command s') :=
  match command with
  | .push _ => decidable_of_iff (s.accepted.length < s.popped.length + min entries R.capacity)
      ⟨fun below _ _ => below, fun credit => credit _ rfl⟩
  | .pop | .drain _ | .runDrain | .consume | .complete _ _ | .harvest _ | .runHarvest =>
    .isTrue fun _ other => nomatch other

/-- Nothing has been let go of, and no more is out than the credit. -/
structure Intact (s : Stages Q R entries) : Prop where
  lost : s.lost = []
  dropped : s.dropped = []
  credit : s.accepted.length ≤ s.popped.length + min entries R.capacity

/-- What is out is what the stages hold. -/
theorem Sound.outstanding (sound : Sound cqEntries s) (intact : Intact s) :
    s.accepted.length = (Q.held s.submitRing).length + (drainHand s.drain).length +
      ((boundedSq entries).sqes s.sq).length + s.inFlight.length +
      (s.cq.drop (entriesRead s.harvest)).length + (harvestHand s.harvest).length +
      (R.held s.completionRing).length + s.popped.length := by
  have requests := congrArg Multiset.card sound.requests
  have completions := congrArg Multiset.card sound.completions
  simp only [Multiset.card_add, card_tally, List.length_append, intact.lost, intact.dropped,
    List.length_nil] at requests completions
  omega

/-- Where the accepted tokens are when nothing has been let go of. -/
theorem Sound.tokens (sound : Sound cqEntries s) (intact : Intact s) :
    tally IoRequest.token s.accepted =
      tally IoRequest.token (Q.held s.submitRing) + tally IoRequest.token (drainHand s.drain) +
        tally Sqe.userData ((boundedSq entries).sqes s.sq) + tally Sqe.userData s.inFlight +
        tally Cqe.userData (s.cq.drop (entriesRead s.harvest)) +
        tally IoCompletion.token (harvestHand s.harvest) +
        tally IoCompletion.token (R.held s.completionRing) +
        tally IoCompletion.token s.popped := by
  have requests := sound.requests
  have completions := sound.completions
  rw [intact.lost] at requests
  rw [intact.dropped] at completions
  have posted : tally Cqe.userData s.posted =
      tally Cqe.userData (s.cq.drop (entriesRead s.harvest)) +
        tally IoCompletion.token (harvestHand s.harvest) +
        tally IoCompletion.token (R.held s.completionRing) +
        tally IoCompletion.token s.popped := by
    have mapped := congrArg (Multiset.map IoCompletion.token) completions
    simpa [tally, Function.comp_def, Cqe.toCompletion, add_assoc] using mapped
  rw [requests, posted, tally_append, tally_nil]
  abel

/-- A drain call with a request in its hands finds an entry for it. -/
theorem Sound.entry_free (sound : Sound cqEntries s) (intact : Intact s) {maxBatch submitted : ℕ}
    {req : IoRequest} (inside : s.drain = some (maxBatch, .reserve submitted req)) :
    (boundedSq entries).fill s.sq (translate pool req) ≠ none := by
  intro full
  have free : entries - ((boundedSq entries).sqes s.sq).length = 0 :=
    ((boundedSq entries).fill_none s.sq _).mp full
  have outstanding := sound.outstanding intact
  have credit := intact.credit
  rw [inside, drainHand, List.length_singleton] at outstanding
  omega

/-- A harvest call with a completion in its hands finds room for it. -/
theorem Sound.room_free (sound : Sound cqEntries s) (intact : Intact s)
    {maxBatch walked delivered : ℕ} {completion : IoCompletion}
    (inside : s.harvest = some (maxBatch, .deliver walked delivered completion)) :
    (R.tryPush s.completionRing completion).1 = true := by
  have outstanding := sound.outstanding intact
  have credit := intact.credit
  rw [inside, harvestHand, List.length_singleton] at outstanding
  exact (R.push_room completion (by omega)).1

theorem step_intact {command : Command} (sound : Sound cqEntries s) (intact : Intact s)
    (moved : Moved pool cqEntries s command s') (credit : credited s command s') :
    Intact s' := by
  obtain ⟨lost, dropped, within⟩ := intact
  cases moved with
  | push req =>
    have below := credit req rfl
    refine ⟨lost, dropped, ?_⟩
    simp only
    split
    · rw [List.length_append]
      exact below
    · exact within
  | pop =>
    refine ⟨lost, dropped, within.trans ?_⟩
    simp only [List.length_append]
    omega
  | @runDrain maxBatch point _ inside =>
    have none : missed pool s.sq point = [] := by
      cases point with
      | reserve submitted req =>
        rw [missed, if_neg (sound.entry_free ⟨lost, dropped, within⟩ inside)]
      | test | submit => rfl
    exact ⟨by simp only [lost, none, List.append_nil], dropped, within⟩
  | @runHarvest maxBatch point _ inside =>
    have none : refused s.completionRing point = [] := by
      cases point with
      | deliver walked delivered completion =>
        rw [refused, if_pos (sound.room_free ⟨lost, dropped, within⟩ inside)]
      | test | advance => rfl
    exact ⟨lost, by simp only [dropped, none, List.append_nil], within⟩
  | drain | consume | complete | harvest => exact ⟨lost, dropped, within⟩

theorem run_intact (reached : (machine Q R entries pool cqEntries).Reachable credited s) :
    Sound cqEntries s ∧ Intact s := by
  refine reached.invariant (P := fun x => Sound cqEntries x ∧ Intact x)
    ⟨start_sound, rfl, rfl, Nat.zero_le _⟩ ?_
  rintro _ _ _ ⟨sound, intact⟩ moved credit
  have step := moved_of_next moved
  exact ⟨step_sound sound step, step_intact sound intact step credit⟩

/-- **End-to-end conservation.** As long as the client keeps to the credit, no
drain call finds the submission ring full with a request in its hands, no
harvest call is refused, and the accepted tokens are those in the submit ring,
in a drain call's hands, in the submission ring, in flight, in entries not yet
read, in a harvest call's hands, in the completion ring, and popped. When the
stages are empty the client has popped exactly what it pushed, each with the
result of its own entry. -/
theorem conserved_under_credit
    (reached : (machine Q R entries pool cqEntries).Reachable credited s) :
    (∀ maxBatch submitted req, s.drain = some (maxBatch, .reserve submitted req) →
      (boundedSq entries).fill s.sq (translate pool req) ≠ none) ∧
    (∀ maxBatch walked delivered completion,
      s.harvest = some (maxBatch, .deliver walked delivered completion) →
      (R.tryPush s.completionRing completion).1 = true) ∧
    s.lost = [] ∧ s.dropped = [] ∧
    tally IoRequest.token s.accepted =
      tally IoRequest.token (Q.held s.submitRing) + tally IoRequest.token (drainHand s.drain) +
        tally Sqe.userData ((boundedSq entries).sqes s.sq) + tally Sqe.userData s.inFlight +
        tally Cqe.userData (s.cq.drop (entriesRead s.harvest)) +
        tally IoCompletion.token (harvestHand s.harvest) +
        tally IoCompletion.token (R.held s.completionRing) +
        tally IoCompletion.token s.popped ∧
    (Q.held s.submitRing = [] → drainHand s.drain = [] → (boundedSq entries).sqes s.sq = [] →
      s.inFlight = [] → s.cq.drop (entriesRead s.harvest) = [] → harvestHand s.harvest = [] →
      R.held s.completionRing = [] →
      tally IoCompletion.token s.popped = tally IoRequest.token s.accepted ∧
        tally id s.popped = tally Cqe.toCompletion s.posted) := by
  obtain ⟨sound, intact⟩ := run_intact reached
  have tokens := sound.tokens intact
  have completions := sound.completions
  rw [intact.dropped] at completions
  refine ⟨fun _ _ _ => sound.entry_free intact, fun _ _ _ _ => sound.room_free intact,
    intact.lost, intact.dropped, tokens, ?_⟩
  intro submit drain sq flight cq harvest completion
  rw [submit, drain, sq, flight, cq, harvest, completion] at tokens
  rw [cq, harvest, completion] at completions
  simp only [List.nil_append, tally_nil, zero_add, add_zero] at tokens completions
  exact ⟨tokens.symm, completions.symm⟩

/-- Two requests out with room for two everywhere. -/
theorem conserved_under_credit_overtaking :
    let Q := SpscRing.fifo IoRequest ⟨2, by decide, by decide⟩
    let R := SpscRing.fifo IoCompletion ⟨2, by decide, by decide⟩
    ∃ s, (machine Q R 2 ⟨0, 4096⟩ 4).Reachable credited s ∧
      s.accepted.map IoRequest.token = [7, 8] ∧ s.popped = [⟨8, 512⟩, ⟨7, -5⟩] ∧
      s.lost = [] ∧ s.dropped = [] ∧
      tally IoCompletion.token s.popped = tally IoRequest.token s.accepted ∧
      tally id s.popped = tally Cqe.toCompletion s.posted := by
  intro Q R
  have ran : ((machine Q R 2 ⟨0, 4096⟩ 4).execWithin credited (machine Q R 2 ⟨0, 4096⟩ 4).start
      overtaking).map (fun s => (s.accepted.map IoRequest.token, s.popped,
        (Q.held s.submitRing ++ drainHand s.drain).length +
        ((boundedSq 2).sqes s.sq ++ s.inFlight).length +
        (s.cq.drop (entriesRead s.harvest)).length +
        (harvestHand s.harvest ++ R.held s.completionRing).length)) =
      some ([7, 8], [⟨8, 512⟩, ⟨7, -5⟩], 0) := by
    decide
  obtain ⟨s, ended, read⟩ := Option.map_eq_some_iff.mp ran
  simp only [Prod.mk.injEq, Nat.add_eq_zero_iff, List.length_eq_zero_iff,
    List.append_eq_nil_iff] at read
  obtain ⟨accepted, popped, ⟨⟨⟨submit, drain⟩, sq, flight⟩, cq⟩, harvest, completion⟩ := read
  have reached := Machine.execWithin_reaches overtaking ended
  obtain ⟨-, -, lost, dropped, -, whole⟩ := conserved_under_credit reached
  exact ⟨s, reached, accepted, popped, lost, dropped,
    whole submit drain sq flight cq harvest completion⟩

end Ringio.Pipeline
