import Ringio.SqpollEngine
import Ringio.SpscRing
import Ringio.MpmcSequential

/-! Where completions go in `harvest_completions`. The call reads the tail anew
for each entry while the kernel posts, pushes what it walks as far as the queue
has room, and releases all of it. -/
namespace Ringio.SqpollEngine
open BoundedFifo

variable {R : Queue IoCompletion}

/-- What a call works on, the entries from the ring's head on, with a record of
those posted since it began and of how many each read of the tail found. -/
structure Walk (R : Queue IoCompletion) where
  out : R.State
  cq : List Cqe
  posted : List Cqe
  reads : List ℕ

/-- A call that has returned: its `walked` and the count it returned. -/
structure Harvested (R : Queue IoCompletion) extends Walk R where
  walked : ℕ
  delivered : ℕ

def HarvestPoint.walked : HarvestPoint → ℕ
  | .test walked _ | .deliver walked _ _ | .advance walked _ => walked

/-- The kernel posts what it has ready as far as its ring has room: entries not
yet advanced past are never overwritten. -/
def Walk.post (cqEntries : UInt32) (s : Walk R) (ready : List Cqe) : Walk R :=
  let new := ready.take (cqEntries.toNat - s.cq.length)
  { s with cq := s.cq ++ new, posted := s.posted ++ new }

/-- One step of the call. -/
def Walk.step (maxBatch : ℕ) (s : Walk R) (point : HarvestPoint) :
    Walk R × Progress HarvestPoint ℕ :=
  let step := harvestStep R maxBatch s.out s.cq point
  let reads := match point with
    | .test _ _ => s.reads ++ [s.cq.length]
    | _ => s.reads
  ({ s with out := step.1.1, cq := step.1.2, reads }, step.2)

/-- `harvest_completions` for at most `fuel` steps. Nobody pops meanwhile;
before each step the kernel posts. -/
def harvest (maxBatch : ℕ) (cqEntries : UInt32) :
    (fuel : ℕ) → (posts : ℕ → List Cqe) → Walk R → HarvestPoint → Option (Harvested R)
  | 0, _, _, _ => none
  | fuel + 1, posts, s, point =>
    match (s.post cqEntries (posts 0)).step maxBatch point with
    | (s', .running point') => harvest maxBatch cqEntries fuel (fun i => posts (i + 1)) s' point'
    | (s', .returned delivered) => some { s' with walked := point.walked, delivered }

/-- A whole call. Two steps an entry and two to finish are enough. -/
def harvestCompletions (maxBatch : ℕ) (cqEntries : UInt32) (posts : ℕ → List Cqe) (out : R.State)
    (cq : List Cqe) : Option (Harvested R) :=
  harvest maxBatch cqEntries (2 * maxBatch + 2) posts ⟨out, cq, [], []⟩ (.test 0 0)

/-- The free places of a queue. -/
def freeSpace (R : Queue IoCompletion) (out : R.State) : ℕ := R.capacity - (R.held out).length

/-- The loop goes on with the next entry there is, or to its end. -/
theorem harvestStep_test (maxBatch : ℕ) (out : R.State) (cq : List Cqe) (walked delivered : ℕ) :
    harvestStep R maxBatch out cq (.test walked delivered) =
        ((out, cq), .running (.advance walked delivered)) ∨
      ∃ cqe, cq[walked]? = some cqe ∧ walked < maxBatch ∧
        harvestStep R maxBatch out cq (.test walked delivered) =
          ((out, cq), .running (.deliver walked delivered cqe.toCompletion)) := by
  cases found : cq[walked]? with
  | none => exact .inl (by simp only [harvestStep, found])
  | some cqe =>
    rcases Nat.lt_or_ge walked maxBatch with more | full
    · refine .inr ⟨cqe, rfl, more, ?_⟩
      simp only [harvestStep, found, if_neg (Nat.not_le.mpr more)]
    · exact .inl (by simp only [harvestStep, found, if_pos full])

/-- A completion is pushed and counted if there is room, and walked past in
either case. -/
theorem harvestStep_deliver (maxBatch : ℕ) (out : R.State) (cq : List Cqe) (walked delivered : ℕ)
    (completion : IoCompletion) :
    ∃ out', harvestStep R maxBatch out cq (.deliver walked delivered completion) =
        ((out', cq), .running (.test (walked + 1) (delivered + min 1 (freeSpace R out)))) ∧
      R.held out' = R.held out ++ [completion].take (min 1 (freeSpace R out)) ∧
      freeSpace R out' = freeSpace R out - 1 := by
  simp only [harvestStep, freeSpace]
  rcases Nat.lt_or_ge (R.held out).length R.capacity with room | full
  · obtain ⟨accepts, contents⟩ := R.push_room completion room
    have one : min 1 (R.capacity - (R.held out).length) = 1 := by omega
    rw [← Prod.mk.eta (p := R.tryPush out completion), accepts, one]
    refine ⟨_, rfl, contents, ?_⟩
    rw [contents, List.length_append, List.length_singleton, Nat.sub_add_eq]
  · obtain ⟨refuses, contents⟩ := R.push_full completion full
    rw [← Prod.mk.eta (p := R.tryPush out completion), refuses, Nat.sub_eq_zero_of_le full]
    refine ⟨_, rfl, by simp [contents], ?_⟩
    rw [contents, Nat.sub_eq_zero_of_le full]

/-- The end of a call: the head moves by what was walked. -/
theorem harvestStep_advance {cqEntries : UInt32} (maxBatch : ℕ) (out : R.State) {cq : List Cqe}
    {walked : ℕ} (delivered : ℕ) (small : cq.length ≤ cqEntries.toNat)
    (inside : walked ≤ cq.length) :
    harvestStep R maxBatch out cq (.advance walked delivered) =
      ((out, cq.drop walked), .returned delivered) := by
  have narrow : (UInt32.ofNat walked).toNat = walked := by
    have bound := cqEntries.toNat_lt
    rw [UInt32.toNat_ofNat', Nat.mod_eq_of_lt (by omega)]
  rw [harvestStep, narrow]
  split
  · rfl
  · rename_i none
    rw [show walked = 0 by omega, List.drop_zero]

/-! ## The walk -/

variable {maxBatch : ℕ} {cqEntries : UInt32} {s : Walk R} {walked delivered fuel : ℕ}
  {posts : ℕ → List Cqe}

theorem Walk.post_fits (fits : s.cq.length ≤ cqEntries.toNat) (ready : List Cqe) :
    ∃ new, s.post cqEntries ready = { s with cq := s.cq ++ new, posted := s.posted ++ new } ∧
      (s.cq ++ new).length ≤ cqEntries.toNat := by
  refine ⟨_, rfl, ?_⟩
  rw [List.length_append, List.length_take]
  omega

/-- What the rest of a call from a loop condition on does: it walks on from
`walked` over the entries there and those posted, pushes as many as fit, and
releases what it walked. -/
structure WalksOn (maxBatch : ℕ) (cqEntries : UInt32) (s : Walk R) (walked delivered : ℕ)
    (done : Harvested R) (new : List Cqe) : Prop where
  posted : done.posted = s.posted ++ new
  onward : walked ≤ done.walked
  batch : done.walked ≤ maxBatch
  least : min maxBatch s.cq.length ≤ done.walked
  inside : done.walked ≤ (s.cq ++ new).length
  small : done.walked ≤ cqEntries.toNat
  last : done.walked < maxBatch → done.reads.getLast? = some done.walked
  released : done.cq = (s.cq ++ new).drop done.walked
  pushed : R.held done.out = R.held s.out ++ (((s.cq ++ new).drop walked).take
    (min (done.walked - walked) (freeSpace R s.out))).map Cqe.toCompletion
  count : done.delivered = delivered + min (done.walked - walked) (freeSpace R s.out)

/-- The last step, with what was posted before it. -/
private theorem harvest_advance (maxBatch : ℕ) (posts : ℕ → List Cqe) (s : Walk R)
    (walked delivered : ℕ) (fits : s.cq.length ≤ cqEntries.toNat) (inside : walked ≤ s.cq.length)
    (enough : 1 ≤ fuel) :
    ∃ new, (s.cq ++ new).length ≤ cqEntries.toNat ∧
      harvest maxBatch cqEntries fuel posts s (.advance walked delivered) =
        some { s with
          cq := (s.cq ++ new).drop walked, posted := s.posted ++ new, walked, delivered } := by
  obtain ⟨fuel, rfl⟩ := Nat.exists_eq_add_of_le' enough
  obtain ⟨new, posted, fits'⟩ := Walk.post_fits fits (posts 0)
  have inside' : walked ≤ (s.cq ++ new).length := by
    rw [List.length_append]
    exact inside.trans (Nat.le_add_right _ _)
  refine ⟨new, fits', ?_⟩
  rw [harvest, posted]
  simp only [Walk.step, harvestStep_advance maxBatch s.out delivered fits' inside',
    HarvestPoint.walked]

/-- A call whose loop ends at this read of the tail. -/
private theorem harvest_stop (fits : s.cq.length ≤ cqEntries.toNat) (within : walked ≤ s.cq.length)
    (batch : walked ≤ maxBatch) (enough : 2 ≤ fuel)
    (ended : maxBatch ≤ walked ∨ (s.post cqEntries (posts 0)).cq.length ≤ walked) :
    ∃ done new, harvest maxBatch cqEntries fuel posts s (.test walked delivered) = some done ∧
      WalksOn maxBatch cqEntries s walked delivered done new := by
  obtain ⟨fuel, rfl⟩ := Nat.exists_eq_add_of_le' enough
  obtain ⟨new, posted, fits'⟩ := Walk.post_fits fits (posts 0)
  rw [posted] at ended
  have within' : walked ≤ (s.cq ++ new).length := by
    rw [List.length_append]
    omega
  obtain ⟨more, fits'', ran⟩ := harvest_advance maxBatch (fun i => posts (i + 1))
    ⟨s.out, s.cq ++ new, s.posted ++ new, s.reads ++ [(s.cq ++ new).length]⟩ walked delivered
    fits' within' (show 1 ≤ fuel + 1 by omega)
  refine ⟨_, new ++ more, Eq.trans ?_ ran, List.append_assoc .., le_rfl, batch, ?_, ?_, ?_, ?_, ?_,
    ?_, ?_⟩
  · rw [harvest, posted]
    simp only [Walk.step, harvestStep]
    cases found : (s.cq ++ new)[walked]? with
    | none => rfl
    | some cqe =>
      have inside := (List.getElem?_eq_some_iff.mp found).1
      simp only
      rw [if_pos (ended.resolve_right (Nat.not_le.mpr inside))]
  · simp only
    rcases ended with full | empty
    · omega
    · have grown : s.cq.length ≤ (s.cq ++ new).length := by simp
      exact (min_le_right _ _).trans (grown.trans empty)
  · show walked ≤ (s.cq ++ (new ++ more)).length
    rw [← List.append_assoc, List.length_append]
    exact within'.trans (Nat.le_add_right _ _)
  · exact within'.trans fits'
  · intro (short : walked < maxBatch)
    have all := ended.resolve_left (Nat.not_le.mpr short)
    show (s.reads ++ [(s.cq ++ new).length]).getLast? = some walked
    rw [List.getLast?_concat, le_antisymm all within']
  · simp only [List.append_assoc]
  · simp
  · simp

/-- A step of the loop: one more entry walked, and pushed if there is room. -/
private theorem harvest_next (delivered fuel : ℕ) (fits : s.cq.length ≤ cqEntries.toNat)
    (more : walked < maxBatch) (inside : walked < (s.post cqEntries (posts 0)).cq.length) :
    ∃ s' delivered' new, (s.cq ++ new).length ≤ cqEntries.toNat ∧ walked < (s.cq ++ new).length ∧
      harvest maxBatch cqEntries (fuel + 2) posts s (.test walked delivered) =
        harvest maxBatch cqEntries fuel (fun i => posts (i + 2)) s'
          (.test (walked + 1) delivered') ∧
      s'.cq = s.cq ++ new ∧ s'.posted = s.posted ++ new ∧
      delivered' = delivered + min 1 (freeSpace R s.out) ∧
      R.held s'.out = R.held s.out ++ (((s.cq ++ new).drop walked).take
        (min 1 (freeSpace R s.out))).map Cqe.toCompletion ∧
      freeSpace R s'.out = freeSpace R s.out - 1 := by
  obtain ⟨first, posted, fits'⟩ := Walk.post_fits fits (posts 0)
  rw [posted] at inside
  obtain ⟨second, posted', fits''⟩ := Walk.post_fits
    (s := ⟨s.out, s.cq ++ first, s.posted ++ first, s.reads ++ [(s.cq ++ first).length]⟩)
    fits' (posts 1)
  have inside' : walked < (s.cq ++ first ++ second).length := by
    rw [List.length_append]
    exact inside.trans_le (Nat.le_add_right _ _)
  have entry : (s.cq ++ first)[walked]? = some (s.cq ++ first ++ second)[walked] := by
    rw [List.getElem?_eq_getElem inside, List.getElem_append_left inside]
  have stepped : harvest maxBatch cqEntries (fuel + 2) posts s (.test walked delivered) =
      harvest maxBatch cqEntries (fuel + 1) (fun i => posts (i + 1))
        ⟨s.out, s.cq ++ first, s.posted ++ first, s.reads ++ [(s.cq ++ first).length]⟩
        (.deliver walked delivered (s.cq ++ first ++ second)[walked].toCompletion) := by
    rw [harvest, posted]
    simp only [Walk.step, harvestStep, entry, if_neg (Nat.not_le.mpr more)]
  obtain ⟨out', delivers, pushed, space⟩ := harvestStep_deliver maxBatch s.out
    (s.cq ++ first ++ second) walked delivered (s.cq ++ first ++ second)[walked].toCompletion
  rw [List.append_assoc] at fits'' inside'
  refine ⟨⟨out', s.cq ++ first ++ second, s.posted ++ first ++ second,
    s.reads ++ [(s.cq ++ first).length]⟩, _, first ++ second, fits'', inside', ?_,
    List.append_assoc .., List.append_assoc .., rfl, ?_, space⟩
  · rw [stepped, harvest, posted']
    simp only [Walk.step, delivers]
  · rw [pushed, ← List.append_assoc, List.drop_eq_getElem_cons (by rwa [List.append_assoc])]
    rcases Nat.eq_zero_or_pos (freeSpace R s.out) with none | some
    · simp [none]
    · rw [show min 1 (freeSpace R s.out) = 1 by omega]
      rfl

/-- What was taken at one entry and after it is what is taken from it on. -/
private theorem take_walked {entries later : List Cqe} {free last : ℕ}
    (inside : walked < entries.length) (onward : walked < last) :
    (entries.drop walked).take (min 1 free) ++
        ((entries ++ later).drop (walked + 1)).take (min (last - (walked + 1)) (free - 1)) =
      ((entries ++ later).drop walked).take (min (last - walked) free) := by
  have inside' : walked < (entries ++ later).length := by
    rw [List.length_append]
    omega
  rw [List.drop_eq_getElem_cons inside, List.drop_eq_getElem_cons inside']
  cases free with
  | zero => simp
  | succ free =>
    rw [show min 1 (free + 1) = 1 by omega,
      show min (last - walked) (free + 1) = min (last - (walked + 1)) free + 1 by omega,
      List.getElem_append_left inside]
    rfl

/-- The rest of a call, from any loop condition on. -/
theorem harvest_loop (cqEntries : UInt32) (remaining : ℕ) (posts : ℕ → List Cqe) (s : Walk R)
    (walked delivered fuel : ℕ) (batch : walked + remaining = maxBatch)
    (within : walked ≤ s.cq.length) (fits : s.cq.length ≤ cqEntries.toNat)
    (enough : 2 * remaining + 2 ≤ fuel) :
    ∃ done new, harvest maxBatch cqEntries fuel posts s (.test walked delivered) = some done ∧
      WalksOn maxBatch cqEntries s walked delivered done new := by
  induction remaining generalizing posts s walked delivered fuel with
  | zero => exact harvest_stop fits within (by omega) (by omega) (.inl (by omega))
  | succ remaining ih =>
    rcases Nat.lt_or_ge walked (s.post cqEntries (posts 0)).cq.length with inside | empty
    · obtain ⟨fuel, rfl⟩ := Nat.exists_eq_add_of_le' (show 2 ≤ fuel by omega)
      have more : walked < maxBatch := by omega
      obtain ⟨s', delivered', first, fits', inside', ran, cq, posted, counted, pushed, space⟩ :=
        harvest_next delivered fuel fits more inside
      obtain ⟨done, later, ended, rest⟩ := ih (fun i => posts (i + 2)) s' (walked + 1) delivered'
        fuel (by omega) (by rw [cq]; exact inside') (by rw [cq]; exact fits') (by omega)
      have onward := rest.onward
      have inside := rest.inside
      refine ⟨done, first ++ later, ran.trans ended, ⟨?_, by omega, rest.batch, ?_, ?_, rest.small,
        rest.last, ?_, ?_, ?_⟩⟩
      · rw [rest.posted, posted, List.append_assoc]
      · have least := rest.least
        rw [cq, List.length_append] at least
        omega
      · rwa [cq, List.append_assoc] at inside
      · rw [rest.released, cq, List.append_assoc]
      · rw [rest.pushed, pushed, space, cq, ← List.append_assoc s.cq, List.append_assoc (R.held _),
          ← List.map_append]
        congr 2
        exact take_walked inside' (by omega)
      · rw [rest.count, counted, space]
        omega
    · exact harvest_stop fits within (by omega) (by omega) (.inr empty)

/-- **Exact accounting of a harvest call**, whatever the kernel posts during it.
It walks a prefix of the entries and falls short of the batch only when a read
of the tail, the last one, found no more; it releases exactly what it walked;
the queue gains the oldest of it, as many as were free; and their number is
what it returns. -/
theorem harvest_accounts (maxBatch : ℕ) (cqEntries : UInt32) (posts : ℕ → List Cqe) (out : R.State)
    {cq : List Cqe} (fits : cq.length ≤ cqEntries.toNat) :
    ∃ done, harvestCompletions maxBatch cqEntries posts out cq = some done ∧
      done.walked ≤ maxBatch ∧ done.walked ≤ (cq ++ done.posted).length ∧
      (done.walked < maxBatch → done.reads.getLast? = some done.walked) ∧
      (UInt32.ofNat done.walked).toNat = done.walked ∧
      done.cq = (cq ++ done.posted).drop done.walked ∧
      R.held done.out = R.held out ++
        ((cq ++ done.posted).take (min done.walked (freeSpace R out))).map Cqe.toCompletion ∧
      done.delivered = min done.walked (freeSpace R out) := by
  obtain ⟨done, new, ran, walks⟩ := harvest_loop cqEntries maxBatch posts
    ⟨out, cq, [], []⟩ 0 0 _ (Nat.zero_add maxBatch) (Nat.zero_le _) fits le_rfl
  have posted : done.posted = new := walks.posted
  have narrow : (UInt32.ofNat done.walked).toNat = done.walked := by
    have bound := cqEntries.toNat_lt
    have small := walks.small
    rw [UInt32.toNat_ofNat', Nat.mod_eq_of_lt (by omega)]
  subst posted
  refine ⟨done, ran, walks.batch, walks.inside, walks.last, narrow, walks.released, walks.pushed,
    ?_⟩
  rw [walks.count, Nat.zero_add, Nat.sub_zero]

/-- One entry there, two posted during the call, room for two: three are walked
and two delivered. -/
theorem harvest_accounts_two :
    let R := SpscRing.fifo IoCompletion ⟨2, by decide, by decide⟩
    let posts : ℕ → List Cqe := fun i => if i = 1 then [⟨8, -5⟩, ⟨9, 512⟩] else []
    ∃ done, harvestCompletions 8 4 posts R.new [⟨7, 512⟩] = some done ∧
      done.walked = 3 ∧ done.delivered = 2 ∧ done.reads.getLast? = some 3 ∧ done.cq = [] ∧
      R.held done.out = [⟨7, 512⟩, ⟨8, -5⟩] := by
  intro R posts
  obtain ⟨done, ran, -, -, last, -, released, pushed, count⟩ :=
    harvest_accounts 8 4 posts R.new (show [(⟨7, 512⟩ : Cqe)].length ≤ UInt32.toNat 4 by decide)
  have read : (harvestCompletions 8 4 posts R.new [⟨7, 512⟩]).map
      (fun done => (done.walked, done.posted)) = some (3, [⟨8, -5⟩, ⟨9, 512⟩]) := by
    decide
  rw [ran, Option.map_some, Option.some.injEq, Prod.mk.injEq] at read
  rw [read.1] at last released count
  rw [read.1, read.2] at pushed
  rw [read.2] at released
  exact ⟨done, ran, read.1, count.trans (by decide), last (by decide), released,
    pushed.trans (by decide)⟩

end Ringio.SqpollEngine
