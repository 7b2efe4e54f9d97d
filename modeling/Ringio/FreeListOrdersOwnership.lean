import Ringio.FreeListOrdersSafety

/-! Who owns which buffer in whole runs of the pool under its memory orders, and
which of these orders that takes. -/
namespace Ringio.FreeListOrders
open ReleaseAcquire LinkedStack FreeListSystem

variable {Thread B : Type} [DecidableEq Thread] {bufferCount : ℕ} {free : List UInt32}
  {orders : Orders} {s s' : System Thread B} {t : Thread}

/-! ## Every step is sound -/

theorem Orders.source_sufficient : Orders.source.Sufficient := ⟨rfl, rfl, rfl⟩

/-- The accesses of `acquire`. -/
theorem acquire_sound (sufficient : orders.Sufficient) (sound : Sound bufferCount s free)
    {point : AcquirePoint} {seen number : ℕ} {fails : Bool}
    (inside : s.threads t = some ⟨.acquire point, seen⟩)
    (recent : recentHeads s (.run t number fails) s')
    (moved : s.acquireStep orders t seen number fails point = some s') :
    ∃ free', Sound bufferCount s' free' := by
  cases point with
  | loadHead =>
    obtain ⟨⟨head, view⟩, loaded, rfl⟩ := Option.map_eq_some_iff.mp moved
    rw [sufficient.firstLoad] at loaded
    exact ⟨free, sound.look loaded⟩
  | loadNext head =>
    obtain ⟨⟨value, view⟩, loaded, rfl⟩ := Option.map_eq_some_iff.mp moved
    exact ⟨free, sound.follow inside loaded⟩
  | exchange head next =>
    cases fails with
    | true =>
      obtain ⟨⟨head', view⟩, loaded, rfl⟩ := Option.map_eq_some_iff.mp moved
      rw [sufficient.failedExchange] at loaded
      exact ⟨free, sound.look loaded⟩
    | false =>
      simp only [System.acquireStep, Bool.false_eq_true, ↓reduceIte] at moved
      split at moved
      · rename_i there
        obtain ⟨⟨m, view⟩, done, rfl⟩ := Option.map_eq_some_iff.mp moved
        refine sound.take inside (recent seen ?_) there done
        simp [Command.exchanger, System.acting, inside]
      · cases moved

/-- The accesses of `release`. -/
theorem release_sound (sufficient : orders.Sufficient) (small : bufferCount < 2 ^ 32)
    (sound : Sound bufferCount s free) {index : UInt32} {point : ReleasePoint} {seen number : ℕ}
    {fails : Bool} (inside : s.threads t = some ⟨.release index point, seen⟩)
    (moved : s.releaseStep orders t index number fails point = some s') :
    ∃ free', Sound bufferCount s' free' := by
  cases point with
  | loadHead =>
    obtain ⟨⟨head, view⟩, loaded, rfl⟩ := Option.map_eq_some_iff.mp moved
    exact ⟨free, sound.ready (sound.frames inside) loaded⟩
  | storeNext head =>
    cases moved
    exact ⟨free, sound.link inside rfl⟩
  | exchange head =>
    have owned : index ∈ s.held t := (sound.frames inside).1
    cases fails with
    | true =>
      obtain ⟨⟨head', view⟩, loaded, rfl⟩ := Option.map_eq_some_iff.mp moved
      exact ⟨free, sound.ready owned loaded⟩
    | false =>
      simp only [System.releaseStep, Bool.false_eq_true, ↓reduceIte] at moved
      split at moved
      · rename_i there
        obtain ⟨⟨m, view⟩, done, rfl⟩ := Option.map_eq_some_iff.mp moved
        rw [sufficient.put] at done
        exact ⟨_, sound.put small inside there done⟩
      · cases moved

theorem step_sound (sufficient : orders.Sufficient) (small : bufferCount < 2 ^ 32)
    {command : Command Thread B} (sound : Sound bufferCount s free)
    (moved : s.next orders command = some s') (recent : recentHeads s command s') :
    ∃ free', Sound bufferCount s' free' := by
  cases command with
  | acquire t =>
    simp only [System.next] at moved
    split at moved
    · cases moved
      refine ⟨free, sound.quiet le_rfl (sound.known t) fun r now => ?_⟩
      cases now
      trivial
    · cases moved
  | release t index =>
    simp only [System.next] at moved
    split at moved
    · split at moved
      · rename_i owned
        cases moved
        refine ⟨free, sound.quiet le_rfl (sound.known t) fun r now => ?_⟩
        cases now
        exact owned
      · cases moved
    · cases moved
  | run t number fails =>
    simp only [System.next] at moved
    split at moved
    · cases moved
    · rename_i inside
      exact acquire_sound sufficient sound inside recent moved
    · rename_i inside
      exact release_sound sufficient small sound inside moved
  | write t index value =>
    simp only [System.next] at moved
    split at moved
    · rename_i mine
      cases moved
      exact ⟨free, sound.fill mine.2 rfl⟩
    · cases moved
  | pass t t' index =>
    simp only [System.next] at moved
    split at moved
    · rename_i mine
      obtain ⟨idle, idle', apart, owned⟩ := mine
      cases moved
      exact ⟨free, sound.pass idle idle' apart owned⟩
    · cases moved

/-! ## Whole runs -/

theorem start_sound [Inhabited B] (positive : 0 < bufferCount) (small : bufferCount < 2 ^ 32) :
    Sound bufferCount (machine Thread B bufferCount orders).start
      (FreeList.initial bufferCount) where
  clean := rfl
  consistent := Consistent.start _ _
  known _ := Known.start _ _
  tags found := by
    obtain ⟨rfl, rfl⟩ := Memory.start_getElem? found
    exact unpackTag_pack _ _
  topped := by
    refine ⟨⟨initial bufferCount .freeHead, fun _ => 0⟩, rfl, ?_, fun index _ => ⟨rfl, rfl⟩⟩
    refine (FreeList.new_threads positive small).congr fun index _ => ?_
    simp [nextOf, Memory.latest, machine, Memory.start, initial]
  shared := by
    refine ⟨FreeList.initial_nodup small.le, fun _ owned => absurd owned (Finset.notMem_empty _),
      fun owned => absurd owned (Finset.notMem_empty _), fun index => ?_⟩
    rw [← FreeList.mem_initial]
    constructor
    · exact .inl
    · rintro (listed | ⟨t, owned⟩)
      · exact listed
      · exact absurd owned (Finset.notMem_empty _)
  holders owned := absurd owned (Finset.notMem_empty _)
  frames inside := by cases inside
  legal := rfl

theorem run_sound [Inhabited B] (sufficient : orders.Sufficient) (positive : 0 < bufferCount)
    (small : bufferCount < 2 ^ 32)
    (reached : (machine Thread B bufferCount orders).Reachable recentHeads s) :
    ∃ free, Sound bufferCount s free :=
  reached.invariant (P := fun s => ∃ free, Sound bufferCount s free)
    ⟨_, start_sound positive small⟩ fun ⟨_, sound⟩ moved recent => step_sound sufficient small sound moved recent

/-- **Buffers change hands whole.** With any number of threads, in any order and with
loads as old as the memory model lets them be, no two accesses to a buffer race and
no store to `free_next_` is unordered. The exchanges that succeeded are those of one
stack in the order they succeeded, and every buffer is on it or with one thread. -/
theorem weak_memory_ownership [Inhabited B] (sufficient : orders.Sufficient)
    (positive : 0 < bufferCount) (small : bufferCount < 2 ^ 32)
    (reached : (machine Thread B bufferCount orders).Reachable recentHeads s) :
    s.memory.faults = [] ∧ ∃ free, Legal (FreeList.initial bufferCount) s.log free ∧
      free.Nodup ∧ (∀ t, ∀ index ∈ s.held t, index ∉ free) ∧
      (∀ t t', ∀ index ∈ s.held t, index ∈ s.held t' → t = t') ∧
      ∀ index : UInt32, index.toNat < bufferCount ↔ index ∈ free ∨ ∃ t, index ∈ s.held t := by
  obtain ⟨free, sound⟩ := run_sound sufficient positive small reached
  exact ⟨sound.clean, free, sound.legal, sound.shared.nodup,
    fun _ _ owned listed => sound.shared.unheld listed owned,
    fun _ _ _ owned => sound.shared.apart owned, sound.shared.covers⟩

/-- A thread takes a buffer, writes to it and gives it back; another takes it too,
after an exchange that failed on an old head, and writes to it. -/
def handedOver : List (Command Bool ℕ) :=
  [.acquire false, .run false 0 false, .run false 0 false,
    .acquire true, .run true 0 false, .run true 0 false, .run true 0 false, .write true 1 7,
    .release true 1, .run true 1 false, .run true 0 false, .run true 0 false,
    .run false 0 true, .run false 0 false, .run false 2 true, .run false 1 false,
    .run false 0 false, .write false 1 8]

/-- Its writes are ordered after the first thread's. -/
theorem weak_memory_ownership_handed_over :
    let two := machine Bool ℕ 2 .source
    ∃ s, two.execWithin recentHeads two.start handedOver = some s ∧
      s.held false = {1} ∧ s.memory.contents 1 = 8 ∧ s.memory.faults = [] := by
  intro two
  have ends : (two.execWithin recentHeads two.start handedOver).map (fun s =>
      (s.held false, s.memory.contents 1)) = some ({1}, 8) := by
    decide
  obtain ⟨s, ran, shape⟩ := Option.map_eq_some_iff.mp ends
  have results := weak_memory_ownership Orders.source_sufficient (by decide) (by decide)
    (Machine.execWithin_reaches handedOver ran)
  exact ⟨s, ran, congrArg Prod.fst shape, congrArg Prod.snd shape, results.1⟩

/-! ## Which orders it takes -/

/-- A thread takes the top buffer, writes to it and gives it back; the other takes
it and writes to it. -/
def reused : List (Command Bool ℕ) :=
  [.acquire true, .run true 0 false, .run true 0 false, .run true 0 false, .write true 1 7,
    .release true 1, .run true 1 false, .run true 0 false, .run true 0 false,
    .acquire false, .run false 2 false, .run false 1 false, .run false 0 false, .write false 1 8]

/-- A thread takes both buffers and gives back the first, then writes to the other. -/
def kept : List (Command Bool ℕ) :=
  [.acquire true, .run true 0 false, .run true 0 false, .run true 0 false,
    .acquire true, .run true 1 false, .run true 0 false, .run true 0 false,
    .release true 1, .run true 2 false, .run true 0 false, .run true 0 false, .write true 0 7]

/-- The other thread takes the first with the successor it had at the start, then
that successor, and writes to it. -/
def misled : List (Command Bool ℕ) :=
  [.run false 0 false, .run false 0 false,
    .acquire false, .run false 4 false, .run false 0 false, .run false 0 false, .write false 0 8]

/-- The schedule that goes wrong without each of the orders. -/
def broken (orders : Orders) : List (Command Bool ℕ) :=
  if orders.put.2 = .relaxed then reused
  else if orders.firstLoad = .relaxed then kept ++ [.acquire false, .run false 3 false] ++ misled
  else [.acquire false, .run false 0 false, .run false 0 false] ++ kept ++ [.run false 3 true] ++
    misled

theorem broken_races (orders : Orders) (weak : ¬ orders.Sufficient) :
    ∃ s, (machine Bool ℕ 2 orders).Reachable recentHeads s ∧ s.memory.faults ≠ [] := by
  have faulty : ((machine Bool ℕ 2 orders).execWithin recentHeads
      (machine Bool ℕ 2 orders).start (broken orders)).map (fun s => s.memory.faults) =
        some [.race] := by
    obtain ⟨_ | _, _ | _, ⟨_ | _, _ | _⟩, ⟨_ | _, _ | _⟩⟩ := orders
    all_goals first
      | exact (weak ⟨rfl, rfl, rfl⟩).elim
      | decide +kernel
  obtain ⟨s, ran, faults⟩ := Option.map_eq_some_iff.mp faulty
  exact ⟨s, Machine.execWithin_reaches _ ran, by rw [faults]; simp⟩

end Ringio.FreeListOrders
