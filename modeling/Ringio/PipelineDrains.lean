import Ringio.PipelineConservation

/-! The pipeline gets done. A step is to some purpose if it moves a request or a
completion along, or goes on with a call, or starts one that will find something.
There are only so many such steps between two pushes, in whatever order the
parties take them, and there is always one while anything is on its way. -/
namespace Ringio.Pipeline
open BoundedFifo SqpollEngine

variable {Q : Queue IoRequest} {R : Queue IoCompletion} {entries : ℕ} {pool : BufferPool}
  {cqEntries : UInt32} {s s' : Stages Q R entries}

/-- No push, no pop of an empty ring, no call that will find nothing. -/
def useful (s : Stages Q R entries) (command : Command) (_ : Stages Q R entries) : Prop :=
  match command with
  | .push _ => False
  | .pop => R.held s.completionRing ≠ []
  | .drain maxBatch => 0 < maxBatch ∧ Q.held s.submitRing ≠ []
  | .harvest maxBatch => 0 < maxBatch ∧ s.cq ≠ []
  | .runDrain | .consume | .complete _ _ | .runHarvest => True

instance (s : Stages Q R entries) (command : Command) (s' : Stages Q R entries) :
    Decidable (useful s command s') :=
  match command with
  | .push _ => .isFalse id
  | .pop => inferInstanceAs (Decidable (_ ≠ _))
  | .drain _ | .harvest _ => inferInstanceAs (Decidable (_ ∧ _))
  | .runDrain | .consume | .complete _ _ | .runHarvest => .isTrue trivial

/-- Nothing on its way, no call in progress. -/
structure Done (s : Stages Q R entries) : Prop where
  submitRing : Q.held s.submitRing = []
  drain : s.drain = none
  sq : (boundedSq entries).sqes s.sq = []
  inFlight : s.inFlight = []
  cq : s.cq = []
  harvest : s.harvest = none
  completionRing : R.held s.completionRing = []

/-! ## The steps that are left -/

/-- What a drain call has before it. A call that will find a request is paid for by
that request. -/
def drainDue (queue : List IoRequest) : Option (ℕ × DrainPoint) → ℕ
  | none => 1
  | some (maxBatch, .test submitted) =>
    if submitted = 0 ∧ 0 < maxBatch ∧ queue ≠ [] then 0 else 3
  | some (_, .reserve _ _) => 13
  | some (_, .submit _) => 2

/-- What a harvest call has before it. -/
def harvestDue (cq : List Cqe) : Option (ℕ × HarvestPoint) → ℕ
  | none => 1
  | some (maxBatch, .test walked _) => if walked = 0 ∧ 0 < maxBatch ∧ cq ≠ [] then 0 else 3
  | some (_, .deliver _ _ _) => 5
  | some (_, .advance _ _) => 2

/-- A request counts for less at each stage. -/
def Stages.due (s : Stages Q R entries) : ℕ :=
  14 * (Q.held s.submitRing).length + drainDue (Q.held s.submitRing) s.drain +
    8 * ((boundedSq entries).sqes s.sq).length + 7 * s.inFlight.length +
    6 * (s.cq.length - entriesRead s.harvest) + harvestDue s.cq s.harvest +
    (R.held s.completionRing).length

theorem runDrain_due {maxBatch : ℕ} {point : DrainPoint} {step}
    (inside : s.drain = some (maxBatch, point))
    (ran : drainStep Q (boundedSq entries) pool maxBatch s.submitRing s.sq point = step) :
    14 * (Q.held step.1.1).length + drainDue (Q.held step.1.1) (onward maxBatch step.2) +
        8 * ((boundedSq entries).sqes step.1.2).length + 1 ≤
      14 * (Q.held s.submitRing).length + drainDue (Q.held s.submitRing) s.drain +
        8 * ((boundedSq entries).sqes s.sq).length := by
  subst ran
  rw [inside]
  cases point with
  | test submitted =>
    by_cases ended : maxBatch ≤ submitted ∨ Q.held s.submitRing = []
    · obtain ⟨queue', step, left⟩ := drainStep_stop (U := boundedSq entries) pool s.sq ended
      have idle : ¬ (submitted = 0 ∧ 0 < maxBatch ∧ Q.held s.submitRing ≠ []) := by
        rintro ⟨rfl, some_, more⟩
        rcases ended with full | empty
        · omega
        · exact more empty
      simp only [step, onward, drainDue, left, if_neg idle]
      omega
    · rw [not_or, Nat.not_le] at ended
      obtain ⟨req, rest, contents⟩ := List.exists_cons_of_ne_nil ended.2
      obtain ⟨queue', step, left⟩ :=
        drainStep_pop (U := boundedSq entries) pool s.sq ended.1 contents
      simp only [step, onward, drainDue, left, contents, List.length_cons]
      omega
  | reserve submitted req =>
    simp only [drainStep]
    cases filled : (boundedSq entries).fill s.sq (translate pool req) with
    | none =>
      simp only [onward, drainDue]
      omega
    | some sq' =>
      have appended := ((boundedSq entries).fill_some s.sq _ sq' filled).2
      simp only [onward, drainDue, appended, List.length_append, List.length_singleton]
      rw [if_neg (by omega)]
      omega
  | submit submitted =>
    obtain ⟨sq', step, same⟩ :=
      drainStep_submit (Q := Q) (U := boundedSq entries) pool maxBatch s.submitRing s.sq submitted
    simp only [step, onward, drainDue, same]
    omega

theorem runHarvest_due (small : s.cq.length < 2 ^ 32) (read : entriesRead s.harvest ≤ s.cq.length)
    {maxBatch : ℕ} {point : HarvestPoint} {step} (inside : s.harvest = some (maxBatch, point))
    (ran : harvestStep R maxBatch s.completionRing s.cq point = step) :
    6 * (step.1.2.length - entriesRead (onward maxBatch step.2)) +
        harvestDue step.1.2 (onward maxBatch step.2) + (R.held step.1.1).length + 1 ≤
      6 * (s.cq.length - entriesRead s.harvest) + harvestDue s.cq s.harvest +
        (R.held s.completionRing).length := by
  subst ran
  rw [inside] at read ⊢
  cases point with
  | test walked delivered =>
    have stop (ended : s.cq[walked]? = none ∨ maxBatch ≤ walked) :
        ¬ (walked = 0 ∧ 0 < maxBatch ∧ s.cq ≠ []) := by
      rintro ⟨rfl, some_, more⟩
      rcases ended with past | full
      · exact more (List.eq_nil_of_length_eq_zero (Nat.le_zero.mp (List.getElem?_eq_none_iff.mp past)))
      · omega
    simp only [harvestStep]
    split
    · rename_i past
      simp only [onward, entriesRead, harvestDue, if_neg (stop (.inl past))]
      omega
    · rename_i cqe found
      have inRange := (List.getElem?_eq_some_iff.mp found).1
      split
      · rename_i full
        simp only [onward, entriesRead, harvestDue, if_neg (stop (.inr full))]
        omega
      · simp only [onward, entriesRead, harvestDue]
        omega
  | deliver walked delivered completion =>
    have next : ¬ (walked + 1 = 0 ∧ 0 < maxBatch ∧ s.cq ≠ []) := by omega
    simp only [harvestStep]
    rcases Nat.lt_or_ge (R.held s.completionRing).length R.capacity with room | full
    · obtain ⟨accepts, contents⟩ := R.push_room completion room
      rw [← Prod.mk.eta (p := R.tryPush s.completionRing completion), accepts]
      simp only [onward, entriesRead, harvestDue, contents, if_neg next, List.length_append,
        List.length_singleton]
      omega
    · obtain ⟨refuses, contents⟩ := R.push_full completion full
      rw [← Prod.mk.eta (p := R.tryPush s.completionRing completion), refuses]
      simp only [onward, entriesRead, harvestDue, contents, if_neg next]
      omega
  | advance walked delivered =>
    simp only [entriesRead] at read
    have exact_ : (UInt32.ofNat walked).toNat = walked := by
      rw [UInt32.toNat_ofNat', Nat.mod_eq_of_lt (by omega)]
    have left : (if 0 < walked then s.cq.drop walked else s.cq).length = s.cq.length - walked := by
      split
      · exact List.length_drop
      · omega
    simp only [harvestStep, onward, entriesRead, harvestDue, exact_, left]
    omega

/-- What the kernel posts gives a harvest call no more to do. -/
theorem harvestDue_append (cq more : List Cqe) (harvest : Option (ℕ × HarvestPoint)) :
    harvestDue (cq ++ more) harvest ≤ harvestDue cq harvest := by
  rcases harvest with _ | ⟨maxBatch, walked | _ | _⟩
  case some.test =>
    simp only [harvestDue]
    by_cases finds : walked = 0 ∧ 0 < maxBatch ∧ cq ≠ []
    · have still : walked = 0 ∧ 0 < maxBatch ∧ cq ++ more ≠ [] :=
        ⟨finds.1, finds.2.1, List.append_ne_nil_of_left_ne_nil finds.2.2 more⟩
      rw [if_pos finds, if_pos still]
    · rw [if_neg finds]
      split <;> omega
  all_goals exact le_rfl

/-- Every useful step leaves fewer. -/
theorem step_due {command : Command} (sound : Sound cqEntries s)
    (moved : Moved pool cqEntries s command s') (purpose : useful s command s') :
    s'.due + 1 ≤ s.due := by
  have small : s.cq.length < 2 ^ 32 := sound.cqFits.trans_lt (UInt32.toNat_lt cqEntries)
  cases moved with
  | push req => cases purpose
  | pop =>
    obtain ⟨oldest, rest, contents⟩ := List.exists_cons_of_ne_nil purpose
    have left := (R.pop_cons contents).2
    simp only [Stages.due, left, contents, List.length_cons]
    omega
  | drain maxBatch idle =>
    have before : drainDue (Q.held s.submitRing) none = 1 := rfl
    have finds : drainDue (Q.held s.submitRing) (some (maxBatch, .test 0)) = 0 :=
      if_pos ⟨rfl, purpose⟩
    simp only [Stages.due, idle, before, finds]
    omega
  | runDrain inside ran =>
    have paid := runDrain_due inside ran
    simp only [Stages.due]
    omega
  | @consume sqe rest taken fits =>
    have before : ((boundedSq entries).sqes s.sq).length =
        (rest ++ s.sq.pending).length + 1 := by
      simp only [boundedSq, taken, List.cons_append, List.length_cons]
    have after : ((boundedSq entries).sqes ⟨rest, s.sq.pending, fits⟩).length =
        (rest ++ s.sq.pending).length := rfl
    simp only [Stages.due, before, after, List.length_append, List.length_singleton]
    omega
  | @complete position sqe res found room =>
    have inRange := (List.getElem?_eq_some_iff.mp found).1
    have posted := harvestDue_append s.cq [⟨sqe.userData, res⟩] s.harvest
    simp only [Stages.due, List.length_eraseIdx_of_lt inRange, List.length_append,
      List.length_singleton]
    omega
  | harvest maxBatch idle =>
    have before : harvestDue s.cq none = 1 := rfl
    have finds : harvestDue s.cq (some (maxBatch, .test 0 0)) = 0 := if_pos ⟨rfl, purpose⟩
    simp only [Stages.due, idle, before, finds, entriesRead]
    omega
  | runHarvest inside ran =>
    have paid := runHarvest_due small sound.read inside ran
    simp only [Stages.due]
    omega

/-! ## There is always one -/

/-- The entries a drain call has filled. -/
def filled : Option (ℕ × DrainPoint) → ℕ
  | some (_, .test submitted) | some (_, .reserve submitted _) | some (_, .submit submitted) =>
    submitted
  | none => 0

/-- Entries wait for `io_uring_submit` only during the call that filled them. -/
def Tidy (s : Stages Q R entries) : Prop := filled s.drain = 0 → s.sq.pending = []

theorem runDrain_tidy (tidy : Tidy s) {maxBatch : ℕ} {point : DrainPoint} {step}
    (inside : s.drain = some (maxBatch, point))
    (ran : drainStep Q (boundedSq entries) pool maxBatch s.submitRing s.sq point = step) :
    filled (onward maxBatch step.2) = 0 → step.1.2.pending = [] := by
  subst ran
  simp only [Tidy, inside] at tidy
  cases point with
  | test submitted =>
    by_cases ended : maxBatch ≤ submitted ∨ Q.held s.submitRing = []
    · obtain ⟨queue', step, -⟩ := drainStep_stop (U := boundedSq entries) pool s.sq ended
      rw [step]
      exact tidy
    · rw [not_or, Nat.not_le] at ended
      obtain ⟨req, rest, contents⟩ := List.exists_cons_of_ne_nil ended.2
      obtain ⟨queue', step, -⟩ := drainStep_pop (U := boundedSq entries) pool s.sq ended.1 contents
      rw [step]
      exact tidy
  | reserve submitted req =>
    simp only [drainStep]
    split
    · exact tidy
    · intro none
      cases none
  | submit submitted =>
    intro _
    rcases Nat.eq_zero_or_pos submitted with rfl | some_
    · exact tidy rfl
    · obtain ⟨before, rfl⟩ := Nat.exists_eq_add_of_lt some_
      rfl

theorem step_tidy {command : Command} (tidy : Tidy s) (moved : Moved pool cqEntries s command s') :
    Tidy s' := by
  cases moved with
  | runDrain inside ran => exact runDrain_tidy tidy inside ran
  | drain maxBatch idle =>
    rw [Tidy, idle] at tidy
    exact fun _ => tidy rfl
  | push | pop | consume | complete | harvest | runHarvest => exact tidy

theorem run_tidy {allowed : Stages Q R entries → Command → Stages Q R entries → Prop}
    (reached : (machine Q R entries pool cqEntries).Reachable allowed s) : Tidy s :=
  reached.invariant (P := Tidy) (fun _ => rfl) fun tidy moved _ => step_tidy tidy (moved_of_next moved)

/-- While anything is on its way some party has a useful step. -/
theorem useful_of_not_done (tidy : Tidy s) (room : 0 < cqEntries.toNat) (more : ¬ Done s) :
    ∃ command s', s.next pool cqEntries command = some s' ∧ useful s command s' := by
  by_contra stuck
  have refused (command : Command) (moves : (s.next pool cqEntries command).isSome) :
      ¬ useful s command s := by
    obtain ⟨s', moved⟩ := Option.isSome_iff_exists.mp moves
    exact fun purpose => stuck ⟨command, s', moved, purpose⟩
  have harvest : s.harvest = none := by
    cases inside : s.harvest with
    | none => rfl
    | some call => exact absurd trivial (refused .runHarvest (by simp [Stages.next, inside]))
  have drain : s.drain = none := by
    cases inside : s.drain with
    | none => rfl
    | some call => exact absurd trivial (refused .runDrain (by simp [Stages.next, inside]))
  have completionRing : R.held s.completionRing = [] := by
    by_contra some_
    exact refused .pop rfl some_
  have cq : s.cq = [] := by
    by_contra some_
    exact refused (.harvest 1) (by simp [Stages.next, harvest]) ⟨Nat.one_pos, some_⟩
  have inFlight : s.inFlight = [] := by
    by_contra some_
    obtain ⟨sqe, rest, contents⟩ := List.exists_cons_of_ne_nil some_
    exact refused (.complete 0 0) (by simp [Stages.next, contents, cq, room]) trivial
  have published : s.sq.published = [] := by
    by_contra some_
    obtain ⟨sqe, rest, contents⟩ := List.exists_cons_of_ne_nil some_
    refine refused .consume ?_ trivial
    simp only [Stages.next]
    split
    · rename_i empty
      exact absurd empty some_
    · rfl
  have submitRing : Q.held s.submitRing = [] := by
    by_contra some_
    exact refused (.drain 1) (by simp [Stages.next, drain]) ⟨Nat.one_pos, some_⟩
  refine more ⟨submitRing, drain, ?_, inFlight, cq, harvest, completionRing⟩
  have pending : s.sq.pending = [] := tidy (by rw [drain]; rfl)
  simp only [boundedSq, published, pending, List.append_nil]

/-! ## Every order of the steps -/

theorem useful_credited {command : Command} (purpose : useful s command s') :
    credited s command s' := by
  rintro req rfl
  cases purpose

theorem run_due {commands : List Command}
    (reached : (machine Q R entries pool cqEntries).Reachable credited s)
    (follows : (machine Q R entries pool cqEntries).Follows useful s commands s') :
    (machine Q R entries pool cqEntries).Reachable credited s' ∧ s'.due + commands.length ≤ s.due ∧
      s'.accepted = s.accepted := by
  induction follows with
  | done s => exact ⟨reached, le_rfl, rfl⟩
  | @step s middle last command rest moved purpose later ih =>
    have step := moved_of_next moved
    have onward := reached.trans (.single ⟨command, moved, useful_credited purpose⟩)
    obtain ⟨reached', left, same⟩ := ih onward
    have paid := step_due (run_intact reached).1 step purpose
    refine ⟨reached', ?_, same.trans ?_⟩
    · rw [List.length_cons]
      omega
    · cases step with
      | push => cases purpose
      | pop | drain | runDrain | consume | complete | harvest | runHarvest => rfl

/-- What is left to do is bounded by what is out. -/
theorem due_le (sound : Sound cqEntries s) (intact : Intact s) :
    s.due + 14 * s.popped.length ≤ 14 * s.accepted.length + 6 := by
  have out := sound.outstanding intact
  rw [List.length_drop] at out
  have drain : drainDue (Q.held s.submitRing) s.drain ≤ 14 * (drainHand s.drain).length + 3 := by
    rcases s.drain with _ | ⟨maxBatch, _ | _ | _⟩
    all_goals simp only [drainDue, drainHand, List.length_nil, List.length_singleton]
    · omega
    · split <;> omega
    · omega
    · omega
  have harvest : harvestDue s.cq s.harvest ≤ 14 * (harvestHand s.harvest).length + 3 := by
    rcases s.harvest with _ | ⟨maxBatch, _ | _ | _⟩
    all_goals simp only [harvestDue, harvestHand, List.length_nil, List.length_singleton]
    · omega
    · split <;> omega
    · omega
    · omega
  simp only [Stages.due]
  omega

/-- **Every order of the steps gets everything done.** From any state that a client
within its credit has brought about, once it stops pushing: however the engine, the
kernel and the client take turns, whatever the kernel answers and in whatever
order, a run of steps that are to some purpose has at most fourteen for each
request that is out and six more; and one that cannot go on has
brought every accepted request's completion to the client. -/
theorem every_order_drains (room : 0 < cqEntries.toNat) {commands : List Command}
    (reached : (machine Q R entries pool cqEntries).Reachable credited s)
    (follows : (machine Q R entries pool cqEntries).Follows useful s commands s') :
    commands.length ≤ 14 * (s.accepted.length - s.popped.length) + 6 ∧
      ((∀ command s'', s'.next pool cqEntries command = some s'' → ¬ useful s' command s'') →
        Done s' ∧ s'.lost = [] ∧ s'.dropped = [] ∧
          tally IoCompletion.token s'.popped = tally IoRequest.token s.accepted) := by
  obtain ⟨reached', paid, same⟩ := run_due reached follows
  obtain ⟨sound, intact⟩ := run_intact reached
  obtain ⟨sound', intact'⟩ := run_intact reached'
  have bound := due_le sound intact
  have fewer := sound.outstanding intact
  refine ⟨by omega, fun stuck => ?_⟩
  have done : Done s' := by
    by_contra more
    obtain ⟨command, s'', moved, purpose⟩ := useful_of_not_done (run_tidy reached') room more
    exact stuck command s'' moved purpose
  refine ⟨done, intact'.lost, intact'.dropped, ?_⟩
  have tokens := sound'.tokens intact'
  rw [done.submitRing, done.drain, done.sq, done.inFlight, done.cq, done.harvest,
    done.completionRing, same] at tokens
  simpa [drainHand, harvestHand] using tokens.symm

/-- Two requests; the kernel answers the second first. -/
def twoAnswered : List Command :=
  [.drain 8, .runDrain, .runDrain, .runDrain, .runDrain, .runDrain, .runDrain,
    .consume, .consume, .complete 1 512, .complete 0 (-5),
    .harvest 1, .runHarvest, .runHarvest, .runHarvest, .runHarvest,
    .harvest 8, .runHarvest, .runHarvest, .runHarvest, .runHarvest, .pop, .pop]

theorem every_order_drains_twoAnswered :
    let Q := SpscRing.fifo IoRequest ⟨2, by decide, by decide⟩
    let R := SpscRing.fifo IoCompletion ⟨2, by decide, by decide⟩
    let m := machine Q R 2 ⟨0, 4096⟩ 4
    ∃ s s', m.execWithin credited m.start
        [.push ⟨.read, 0, 0, 0, 512, 7⟩, .push ⟨.write, 0, 1, 512, 512, 8⟩] = some s ∧
      m.execWithin useful s twoAnswered = some s' ∧ s'.popped = [⟨8, 512⟩, ⟨7, -5⟩] ∧
      twoAnswered.length ≤ 14 * (s.accepted.length - s.popped.length) + 6 := by
  intro Q R m
  have ends : ((m.execWithin credited m.start
      [.push ⟨.read, 0, 0, 0, 512, 7⟩, .push ⟨.write, 0, 1, 512, 512, 8⟩]).bind fun s =>
        (m.execWithin useful s twoAnswered).map fun s' => s'.popped) =
      some [⟨8, 512⟩, ⟨7, -5⟩] := by
    decide
  obtain ⟨s, first, later⟩ := Option.bind_eq_some_iff.mp ends
  obtain ⟨s', second, popped⟩ := Option.map_eq_some_iff.mp later
  have drains := every_order_drains (by decide) (Machine.execWithin_reaches _ first)
    (Machine.execWithin_follows twoAnswered second)
  exact ⟨s, s', first, second, popped, drains.1⟩

end Ringio.Pipeline
