import Ringio.HarvestAccounting
import Ringio.Pipeline

/-! Harvest calls one after another, with the kernel posting and the client
popping in between and during them. The queue's size is not what keeps a call
from dropping completions: what earlier calls have left in it counts too. -/
namespace Ringio.SqpollEngine
open BoundedFifo Pipeline

variable {R : Queue IoCompletion} {cqEntries : UInt32}

/-- The kernel's ring from its head on, the completion queue and the call in
progress with its batch limit, and a record: `walked` and `delivered` of the
calls that have returned, the entries advanced past, the completions pushed and
those the queue refused. -/
structure Harvesting (R : Queue IoCompletion) where
  cq : List Cqe
  out : R.State
  call : Option (ℕ × HarvestPoint)
  returned : List (ℕ × ℕ)
  advanced : List Cqe
  pushed : List IoCompletion
  dropped : List IoCompletion

/-- The kernel posts, the client pops, the engine's thread starts a call or goes
on with it. -/
inductive HarvestCommand where
  | post (cqe : Cqe)
  | pop
  | harvest (maxBatch : ℕ)
  | run

/-- The completion the delivery step gets into the queue. -/
def taken (out : R.State) : HarvestPoint → List IoCompletion
  | .deliver _ _ completion => if (R.tryPush out completion).1 then [completion] else []
  | _ => []

/-- The two counts of a call at its end. -/
def counts : HarvestPoint → List (ℕ × ℕ)
  | .advance walked delivered => [(walked, delivered)]
  | _ => []

def Harvesting.next (cqEntries : UInt32) (s : Harvesting R) :
    HarvestCommand → Option (Harvesting R)
  | .post cqe =>
    if s.cq.length < cqEntries.toNat then some { s with cq := s.cq ++ [cqe] } else none
  | .pop => some { s with out := (R.tryPop s.out).2 }
  | .harvest maxBatch =>
    match s.call with
    | none => some { s with call := some (maxBatch, .test 0 0) }
    | some _ => none
  | .run =>
    match s.call with
    | none => none
    | some (maxBatch, point) =>
      let step := harvestStep R maxBatch s.out s.cq point
      some {
        cq := step.1.2
        out := step.1.1
        call := onward maxBatch step.2
        returned := s.returned ++ counts point
        advanced := s.advanced ++ s.cq.take (s.cq.length - step.1.2.length)
        pushed := s.pushed ++ taken s.out point
        dropped := s.dropped ++ refused s.out point }

/-- Both rings empty, no call in progress. -/
def harvesting (R : Queue IoCompletion) (cqEntries : UInt32) :
    Machine (Harvesting R) HarvestCommand where
  start := ⟨[], R.new, none, [], [], [], []⟩
  next := Harvesting.next cqEntries

/-- Every call that has returned delivered what it walked, every entry advanced
past is in what was pushed, in order, and no push was refused. -/
structure NothingDropped (s : Harvesting R) : Prop where
  counts : ∀ walked delivered, (walked, delivered) ∈ s.returned → delivered = walked
  pushed : s.advanced.map Cqe.toCompletion <+: s.pushed
  dropped : s.dropped = []

/-- Runs whose calls start with as many free places in the queue as they can
walk entries: at most the batch, at most what the kernel's ring holds. -/
def sized (cqEntries : UInt32) (s : Harvesting R) (command : HarvestCommand) (_ : Harvesting R) :
    Prop :=
  ∀ maxBatch, command = .harvest maxBatch → min maxBatch cqEntries.toNat ≤ freeSpace R s.out

/-! ## Calls with enough room -/

/-- What the call in progress has walked it has pushed. -/
structure Walked (s : Harvesting R) (walked delivered : ℕ) : Prop where
  delivers : delivered = walked
  inside : walked ≤ s.cq.length
  pushed : s.pushed = (s.advanced ++ s.cq.take walked).map Cqe.toCompletion

/-- A call that started with enough room has room for what is left of it. -/
def Roomy (cqEntries : UInt32) (s : Harvesting R) (maxBatch : ℕ) : HarvestPoint → Prop
  | .test walked delivered =>
    Walked s walked delivered ∧ min maxBatch cqEntries.toNat ≤ walked + freeSpace R s.out
  | .deliver walked delivered completion =>
    Walked s walked delivered ∧ min maxBatch cqEntries.toNat ≤ walked + freeSpace R s.out ∧
      walked < maxBatch ∧ ∃ cqe, s.cq[walked]? = some cqe ∧ completion = cqe.toCompletion
  | .advance walked delivered => Walked s walked delivered

/-- The invariant of such runs. -/
structure Sized (cqEntries : UInt32) (s : Harvesting R) : Prop where
  fits : s.cq.length ≤ cqEntries.toNat
  counts : ∀ walked delivered, (walked, delivered) ∈ s.returned → delivered = walked
  dropped : s.dropped = []
  idle : s.call = none → s.pushed = s.advanced.map Cqe.toCompletion
  roomy : ∀ maxBatch point, s.call = some (maxBatch, point) → Roomy cqEntries s maxBatch point

theorem start_sized : Sized cqEntries (harvesting R cqEntries).start :=
  ⟨Nat.zero_le _, by simp [harvesting], rfl, fun _ => rfl, by simp [harvesting]⟩

/-- More entries behind those walked and more free places change nothing. -/
theorem Roomy.grow {s : Harvesting R} {maxBatch : ℕ} {point : HarvestPoint}
    (roomy : Roomy cqEntries s maxBatch point) (new : List Cqe) {out : R.State}
    (free : freeSpace R s.out ≤ freeSpace R out) :
    Roomy cqEntries { s with cq := s.cq ++ new, out } maxBatch point := by
  have walks {walked delivered : ℕ} (before : Walked s walked delivered) :
      Walked { s with cq := s.cq ++ new, out } walked delivered := by
    refine ⟨before.delivers, ?_, ?_⟩
    · rw [List.length_append]
      exact before.inside.trans (Nat.le_add_right _ _)
    · show s.pushed = _
      rw [before.pushed, List.take_append_of_le_length before.inside]
  cases point with
  | test => exact ⟨walks roomy.1, roomy.2.trans (Nat.add_le_add_left free _)⟩
  | deliver walked =>
    obtain ⟨before, room, more, cqe, found, shape⟩ := roomy
    refine ⟨walks before, room.trans (Nat.add_le_add_left free _), more, cqe, ?_, shape⟩
    rw [List.getElem?_append_left (List.getElem?_eq_some_iff.mp found).1, found]
  | advance => exact walks roomy

theorem freeSpace_tryPop (out : R.State) : freeSpace R out ≤ freeSpace R (R.tryPop out).2 := by
  unfold freeSpace
  cases contents : R.held out with
  | nil => rw [(R.pop_nil contents).2]
  | cons oldest rest =>
    rw [(R.pop_cons contents).2, List.length_cons]
    omega

/-- A step of a call with enough room keeps it so, and drops nothing. -/
theorem run_sized {s s' : Harvesting R} {maxBatch : ℕ} {point : HarvestPoint}
    (sized : Sized cqEntries s) (inside : s.call = some (maxBatch, point))
    (moved : s.next cqEntries .run = some s') : Sized cqEntries s' := by
  obtain ⟨fits, counted, dropped, -, roomy⟩ := sized
  replace roomy := roomy maxBatch point inside
  simp only [Harvesting.next, inside, Option.some.injEq] at moved
  subst moved
  cases point with
  | test walked delivered =>
    obtain ⟨walks, room⟩ := roomy
    rcases harvestStep_test maxBatch s.out s.cq walked delivered with
      stepped | ⟨cqe, found, more, stepped⟩
    · simp only [stepped, Nat.sub_self, List.take_zero, List.append_nil, counts, taken, refused]
      refine ⟨fits, counted, dropped, (fun idle => by cases idle), ?_⟩
      rintro _ _ ⟨⟩
      exact ⟨walks.delivers, walks.inside, walks.pushed⟩
    · simp only [stepped, Nat.sub_self, List.take_zero, List.append_nil, counts, taken, refused]
      refine ⟨fits, counted, dropped, (fun idle => by cases idle), ?_⟩
      rintro _ _ ⟨⟩
      exact ⟨⟨walks.delivers, walks.inside, walks.pushed⟩, room, more, cqe, found, rfl⟩
  | deliver walked delivered completion =>
    obtain ⟨walks, room, more, cqe, found, rfl⟩ := roomy
    obtain ⟨within, entry⟩ := List.getElem?_eq_some_iff.mp found
    have some : 0 < freeSpace R s.out := by omega
    obtain ⟨out', stepped, -, space⟩ :=
      harvestStep_deliver maxBatch s.out s.cq walked delivered cqe.toCompletion
    have accepted := (R.push_room cqe.toCompletion (Nat.lt_of_sub_pos some)).1
    simp only [stepped, Nat.sub_self, List.take_zero, List.append_nil, counts, taken, refused,
      accepted, if_true]
    refine ⟨fits, counted, dropped, (fun idle => by cases idle), ?_⟩
    rintro _ _ ⟨⟩
    refine ⟨⟨?_, within, ?_⟩, ?_⟩
    · rw [walks.delivers, show min 1 (freeSpace R s.out) = 1 by omega]
    · show s.pushed ++ [cqe.toCompletion] = (s.advanced ++ s.cq.take (walked + 1)).map _
      rw [walks.pushed, List.take_succ_eq_append_getElem within, entry]
      simp
    · show _ ≤ walked + 1 + freeSpace R out'
      omega
  | advance walked delivered =>
    obtain ⟨delivers, within, pushed⟩ := roomy
    simp only [harvestStep_advance maxBatch s.out delivered fits within, List.length_drop,
      Nat.sub_sub_self within, counts, taken, refused, List.append_nil]
    refine ⟨?_, ?_, dropped, fun _ => pushed, fun _ _ idle => by cases idle⟩
    · rw [List.length_drop]
      exact (Nat.sub_le _ _).trans fits
    · intro walked' delivered' member
      rcases List.mem_append.mp member with before | last
      · exact counted walked' delivered' before
      · cases List.mem_singleton.mp last
        exact delivers

theorem step_sized {s s' : Harvesting R} {command : HarvestCommand} (before : Sized cqEntries s)
    (moved : s.next cqEntries command = some s') (room : sized cqEntries s command s') :
    Sized cqEntries s' := by
  obtain ⟨fits, counted, dropped, idle, roomy⟩ := before
  cases command with
  | post cqe =>
    simp only [Harvesting.next] at moved
    split at moved
    · rename_i free
      cases moved
      refine ⟨?_, counted, dropped, idle, fun m point inside => ?_⟩
      · rw [List.length_append]
        exact free
      · exact (roomy m point inside).grow _ le_rfl
    · cases moved
  | pop =>
    cases moved
    refine ⟨fits, counted, dropped, idle, fun m point inside => ?_⟩
    have grown := (roomy m point inside).grow [] (freeSpace_tryPop s.out)
    simpa only [List.append_nil] using grown
  | harvest maxBatch =>
    simp only [Harvesting.next] at moved
    split at moved
    · rename_i none
      cases moved
      refine ⟨fits, counted, dropped, nofun, ?_⟩
      rintro _ _ ⟨⟩
      refine ⟨⟨rfl, Nat.zero_le _, by simpa using idle none⟩, ?_⟩
      rw [Nat.zero_add]
      exact room maxBatch rfl
    · cases moved
  | run =>
    cases inside : s.call with
    | none => simp [Harvesting.next, inside] at moved
    | some call => exact run_sized ⟨fits, counted, dropped, idle, roomy⟩ inside moved

/-- The invariant gives what the calls promise. -/
theorem Sized.nothing_dropped {s : Harvesting R} (sized : Sized cqEntries s) :
    NothingDropped s := by
  refine ⟨sized.counts, ?_, sized.dropped⟩
  have walked {walked delivered : ℕ} (walks : Walked s walked delivered) :
      s.advanced.map Cqe.toCompletion <+: s.pushed := by
    rw [walks.pushed, List.map_append]
    exact List.prefix_append _ _
  cases inside : s.call with
  | none =>
    have pushed := sized.idle inside
    exact ⟨[], by rw [pushed, List.append_nil]⟩
  | some call =>
    obtain ⟨maxBatch, point⟩ := call
    have roomy := sized.roomy maxBatch point inside
    cases point with
    | test | deliver => exact walked roomy.1
    | advance => exact walked roomy

/-! ## Calls without -/

/-- The kernel can post what its ring has room for. -/
private theorem posts_reach (s : Harvesting R) (new : List Cqe)
    (room : s.cq.length + new.length ≤ cqEntries.toNat) :
    (harvesting R cqEntries).Reaches Machine.anyStep s { s with cq := s.cq ++ new } := by
  induction new generalizing s with
  | nil =>
    rw [List.append_nil]
    exact .refl
  | cons cqe rest ih =>
    rw [List.length_cons] at room
    have free : s.cq.length < cqEntries.toNat := by omega
    have posted : (harvesting R cqEntries).next s (.post cqe) =
        some { s with cq := s.cq ++ [cqe] } := if_pos free
    have later := ih { s with cq := s.cq ++ [cqe] } (by
      rw [List.length_append, List.length_singleton]
      omega)
    rw [List.append_assoc] at later
    exact .head ⟨_, posted, trivial⟩ later

/-- Only the last step of a call returns, with its counts, and shortens the
kernel's ring; the others leave it alone. -/
private theorem harvestStep_ends (maxBatch : ℕ) (out : R.State) (cq : List Cqe)
    (point : HarvestPoint) :
    (∀ point', (harvestStep R maxBatch out cq point).2 = .running point' →
      (harvestStep R maxBatch out cq point).1.2 = cq ∧ counts point = []) ∧
    (∀ delivered, (harvestStep R maxBatch out cq point).2 = .returned delivered →
      counts point = [(point.walked, delivered)]) ∧
    (harvestStep R maxBatch out cq point).1.2.length ≤ cq.length := by
  cases point with
  | test walked delivered =>
    rcases harvestStep_test maxBatch out cq walked delivered with stepped | ⟨cqe, -, -, stepped⟩
    · rw [stepped]
      exact ⟨fun _ _ => ⟨rfl, rfl⟩, nofun, le_rfl⟩
    · rw [stepped]
      exact ⟨fun _ _ => ⟨rfl, rfl⟩, nofun, le_rfl⟩
  | deliver walked delivered completion =>
    obtain ⟨out', stepped, -⟩ := harvestStep_deliver maxBatch out cq walked delivered completion
    rw [stepped]
    exact ⟨fun _ _ => ⟨rfl, rfl⟩, nofun, le_rfl⟩
  | advance walked delivered =>
    refine ⟨nofun, fun count returned => ?_, ?_⟩
    · cases returned
      rfl
    · simp only [harvestStep]
      split
      · rw [List.length_drop]
        exact Nat.sub_le _ _
      · exact le_rfl

private theorem run_next (cqEntries : UInt32) (s : Harvesting R) {maxBatch : ℕ}
    {point : HarvestPoint} (inside : s.call = some (maxBatch, point)) :
    ∃ s', (harvesting R cqEntries).next s .run = some s' ∧
      s'.cq = (harvestStep R maxBatch s.out s.cq point).1.2 ∧
      s'.out = (harvestStep R maxBatch s.out s.cq point).1.1 ∧
      s'.call = onward maxBatch (harvestStep R maxBatch s.out s.cq point).2 ∧
      s'.returned = s.returned ++ counts point := by
  refine ⟨_, by simp only [harvesting, Harvesting.next, inside]; rfl, rfl, rfl, rfl, rfl⟩

/-- A call as it was accounted for is a run of the machine, in which nobody pops. -/
theorem harvest_reaches {maxBatch fuel : ℕ} {posts : ℕ → List Cqe} {walk : Walk R}
    {point : HarvestPoint} {done : Harvested R} (s : Harvesting R) (cq : s.cq = walk.cq)
    (out : s.out = walk.out) (inside : s.call = some (maxBatch, point))
    (fits : walk.cq.length ≤ cqEntries.toNat)
    (ran : harvest maxBatch cqEntries fuel posts walk point = some done) :
    ∃ s', (harvesting R cqEntries).Reaches Machine.anyStep s s' ∧ s'.call = none ∧
      s'.returned = s.returned ++ [(done.walked, done.delivered)] := by
  induction fuel generalizing posts walk point s with
  | zero => cases ran
  | succ fuel ih =>
    obtain ⟨new, posted, fits'⟩ := Walk.post_fits fits (posts 0)
    rw [harvest, posted] at ran
    have before := posts_reach s new (by rwa [cq, ← List.length_append])
    have ends := harvestStep_ends maxBatch walk.out (walk.cq ++ new) point
    obtain ⟨s₁, moved, cq₁, out₁, call₁, returned₁⟩ :=
      run_next cqEntries { s with cq := s.cq ++ new } inside
    have reached := before.tail ⟨_, moved, trivial⟩
    simp only [cq, out] at cq₁ out₁ call₁
    simp only [Walk.step] at ran
    split at ran
    · rename_i stepped
      obtain ⟨rfl, progress⟩ := Prod.mk.inj stepped
      obtain ⟨same, none⟩ := ends.1 _ progress
      rw [progress] at call₁
      obtain ⟨s', later, ended, returned⟩ :=
        ih s₁ cq₁ out₁ call₁ (by simp only [same]; exact fits') ran
      refine ⟨s', reached.trans later, ended, ?_⟩
      rw [returned, returned₁, none, List.append_nil]
    · rename_i stepped
      obtain ⟨rfl, progress⟩ := Prod.mk.inj stepped
      cases ran
      rw [progress] at call₁
      exact ⟨s₁, reached, call₁, by rw [returned₁, ends.2.1 _ progress]⟩

/-- The kernel never has more out than its ring holds. -/
private theorem cq_fits {s : Harvesting R}
    (reached : (harvesting R cqEntries).Reachable Machine.anyStep s) :
    s.cq.length ≤ cqEntries.toNat := by
  refine reached.invariant (P := fun s => s.cq.length ≤ cqEntries.toNat) (Nat.zero_le _) ?_
  intro s command s' fits moved _
  cases command with
  | post cqe =>
    simp only [harvesting, Harvesting.next] at moved
    split at moved
    · rename_i free
      cases moved
      rw [List.length_append]
      exact free
    · cases moved
  | pop =>
    cases moved
    exact fits
  | harvest maxBatch =>
    simp only [harvesting, Harvesting.next] at moved
    split at moved
    · cases moved
      exact fits
    · cases moved
  | run =>
    cases inside : s.call with
    | none => simp [harvesting, Harvesting.next, inside] at moved
    | some call =>
      obtain ⟨s₁, moved', cq, -⟩ := run_next cqEntries s inside
      cases moved.symm.trans moved'
      rw [cq]
      exact (harvestStep_ends call.1 s.out s.cq call.2).2.2.trans fits

/-- A call that starts short of room can drop: the kernel fills its ring, the
call walks what the batch allows and the queue refuses the rest. -/
theorem short_call_drops {s : Harvesting R} {maxBatch : ℕ}
    (reached : (harvesting R cqEntries).Reachable Machine.anyStep s) (idle : s.call = none)
    (short : freeSpace R s.out < min maxBatch cqEntries.toNat) :
    ∃ s₁ s' walked delivered, s.next cqEntries (.harvest maxBatch) = some s₁ ∧
      (harvesting R cqEntries).Reaches Machine.anyStep s₁ s' ∧
      s'.returned = s.returned ++ [(walked, delivered)] ∧ delivered < walked := by
  have fits := cq_fits reached
  obtain ⟨new, full⟩ : ∃ new : List Cqe, (s.cq ++ new).length = cqEntries.toNat := by
    refine ⟨List.replicate (cqEntries.toNat - s.cq.length) ⟨0, 0⟩, ?_⟩
    rw [List.length_append, List.length_replicate]
    omega
  have filled := posts_reach { s with call := some (maxBatch, .test 0 0) } new
    (by rw [← List.length_append, full])
  obtain ⟨done, _, ran, walks⟩ := harvest_loop cqEntries maxBatch (fun _ => [])
    ⟨s.out, s.cq ++ new, [], []⟩ 0 0 _ (Nat.zero_add maxBatch) (Nat.zero_le _) full.le le_rfl
  obtain ⟨s', called, -, returned⟩ := harvest_reaches
    { s with cq := s.cq ++ new, call := some (maxBatch, .test 0 0) } rfl rfl rfl full.le ran
  refine ⟨_, s', done.walked, done.delivered, by rw [Harvesting.next, idle],
    filled.trans called, returned, ?_⟩
  have least := walks.least
  have count := walks.count
  rw [full] at least
  simp only at count
  omega

/-- **Calls that start with a free place for every entry they can walk drop
nothing, over any run**: what they walk they deliver, whatever the kernel and
the client do meanwhile. A call that starts with fewer can drop. -/
theorem harvest_drops_nothing_when_sized (R : Queue IoCompletion) (cqEntries : UInt32) :
    (∀ s, (harvesting R cqEntries).Reachable (sized cqEntries) s → NothingDropped s) ∧
    (∀ s maxBatch, (harvesting R cqEntries).Reachable Machine.anyStep s → s.call = none →
      freeSpace R s.out < min maxBatch cqEntries.toNat →
      ∃ s₁ s' walked delivered, s.next cqEntries (.harvest maxBatch) = some s₁ ∧
        (harvesting R cqEntries).Reaches Machine.anyStep s₁ s' ∧
        s'.returned = s.returned ++ [(walked, delivered)] ∧ delivered < walked) := by
  refine ⟨fun s reached => ?_, fun s maxBatch reached idle short =>
    short_call_drops reached idle short⟩
  have invariant : Sized cqEntries s := reached.invariant start_sized step_sized
  exact invariant.nothing_dropped

/-- Runs whose batches are no larger than the queue. -/
def sizedForBatch (_ : Harvesting R) (command : HarvestCommand) (_ : Harvesting R) : Prop :=
  ∀ maxBatch, command = .harvest maxBatch → maxBatch ≤ R.capacity

instance (s : Harvesting R) (command : HarvestCommand) (s' : Harvesting R) :
    Decidable (sizedForBatch s command s') :=
  match command with
  | .harvest maxBatch => decidable_of_iff (maxBatch ≤ R.capacity)
      ⟨fun fits _ same => by cases same; exact fits, fun fits => fits _ rfl⟩
  | .post _ | .pop | .run => .isTrue fun _ other => nomatch other

/-- Three completions, two calls of two each into a queue of two, no pop. -/
def twoCalls : List HarvestCommand :=
  [.post ⟨7, 512⟩, .post ⟨8, 512⟩, .post ⟨9, -5⟩, .harvest 2, .run, .run, .run, .run, .run, .run,
    .harvest 2, .run, .run, .run, .run]

/-- The queue is as large as the batch and still a completion is dropped, with
either ring. -/
theorem sized_for_batch_drops :
    let spsc := SpscRing.fifo IoCompletion ⟨2, by decide, by decide⟩
    let mpmc := MpmcRing.fifo IoCompletion ⟨2, by decide, by decide⟩ (by decide) 0
    (∃ s, (harvesting spsc 4).Reachable sizedForBatch s ∧ ¬ NothingDropped s ∧
      s.returned = [(2, 2), (1, 0)] ∧ s.dropped = [⟨9, -5⟩]) ∧
    (∃ s, (harvesting mpmc 4).Reachable sizedForBatch s ∧ ¬ NothingDropped s ∧
      s.returned = [(2, 2), (1, 0)] ∧ s.dropped = [⟨9, -5⟩]) := by
  intro spsc mpmc
  have drops (R : Queue IoCompletion)
      (ran : ((harvesting R 4).execWithin sizedForBatch (harvesting R 4).start twoCalls).map
        (fun s => (s.returned, s.dropped)) = some ([(2, 2), (1, 0)], [⟨9, -5⟩])) :
      ∃ s, (harvesting R 4).Reachable sizedForBatch s ∧ ¬ NothingDropped s ∧
        s.returned = [(2, 2), (1, 0)] ∧ s.dropped = [⟨9, -5⟩] := by
    obtain ⟨s, ended, read⟩ := Option.map_eq_some_iff.mp ran
    obtain ⟨returned, dropped⟩ := Prod.mk.inj read
    refine ⟨s, Machine.execWithin_reaches twoCalls ended, fun whole => ?_, returned, dropped⟩
    exact List.cons_ne_nil _ _ (dropped.symm.trans whole.dropped)
  exact ⟨drops spsc (by decide), drops mpmc (by decide)⟩

end Ringio.SqpollEngine
