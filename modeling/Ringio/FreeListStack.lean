import Ringio.FreeListSafety

/-! What the free list promises its callers, and where the promise ends. Below a
full turn of the tag between a read of the head and the exchange, the pool is a
last-in first-out stack that issues no index twice. At a full turn the exchange
accepts a successor that is no longer the head's. -/
namespace Ringio.FreeListSystem
open LinkedStack

variable {Thread : Type} [DecidableEq Thread] {bufferCount : ℕ} {s s' : System Thread}
  {t : Thread} {r : Running} {free : List UInt32} {index next : UInt32} {head : UInt64} {seen : ℕ}

/-! ## Successful exchanges -/

/-- The exchange of an `acquire` whose snapshot equals the head word. -/
theorem next_take (exchanging : Exchanging s t s.list.freeHead next seen)
    (proper : unpackIndex s.list.freeHead ≠ kInvalidIndex) :
    s.next (.run t false) = some (s.take t
      { s.list with freeHead := pack next (unpackTag s.list.freeHead + 1) }
      (unpackIndex s.list.freeHead)) := by
  rw [Exchanging] at exchanging
  simp only [System.next, System.run, exchanging, FreeList.acquireStep, and_self, if_true,
    System.afterAcquire, if_neg proper]

/-- The exchange of a `release` whose snapshot equals the head word. -/
theorem next_put
    (inside : s.threads t = some ⟨.release index (.exchange s.list.freeHead), seen⟩) :
    s.next (.run t false) = some (s.put t
      { s.list with freeHead := pack index (unpackTag s.list.freeHead + 1) } index) := by
  simp only [System.next, System.run, inside, FreeList.releaseStep, and_self, if_true,
    System.afterRelease]

/-- Only a read of an empty list answers an `acquire` with no index. -/
theorem Sound.refused_empty {command : Command Thread} (sound : Sound bufferCount s free)
    (stepped : s.next command = some s') (refused : s'.log = s.log ++ [.popped none]) :
    free = [] ∧ ∃ t spurious r point, command = .run t spurious ∧ s.threads t = some r ∧
      r.frame = .acquire point ∧
      (point = .loadHead ∨ ∃ head next, point = .exchange head next) := by
  cases moved_of_next sound.proper stepped with
  | @empty t r point spurious inside frame reads ended =>
    exact ⟨sound.threads.nil_of_eq ended, t, spurious, r, point, rfl, inside, frame, reads⟩
  | acquire | release | look | follow | ready | link =>
    simp [System.shift, System.withdraw] at refused
  | take | put => simp [System.take, System.put, System.finish] at refused

/-- **The free list is a stack that issues no index twice.** In every state
reached by any number of threads, with fewer than `2 ^ 32` successful exchanges
between an `acquire`'s latest read of the head and its own: the list from
`free_head_` is finite, without duplicates, in range and properly ended; each
index is in exactly one of the list, the callers' hands and one unfinished
`release`; and the operations in the order of their effects are a history of a
stack. A successful exchange takes the first index off, or puts its own on, and
`acquire` comes back empty-handed only from reading the head of an empty list. -/
theorem free_list_is_stack (positive : 1 ≤ bufferCount) (small : bufferCount < 2 ^ 32)
    (reached : (machine Thread bufferCount).Reachable fewSwaps s) :
    ∃ free : List UInt32, s.list.Threads free ∧ free.Nodup ∧
      (∀ index ∈ free, index.toNat < bufferCount) ∧
      Placed (fun index : UInt32 => index.toNat < bufferCount) free s.held s.releasing ∧
      Legal (FreeList.initial bufferCount) s.log free ∧
      (∀ t next seen s', Exchanging s t s.list.freeHead next seen →
        s.next (.run t false) = some s' → fewSwaps s (.run t false) s' →
        ∃ rest, free = unpackIndex s.list.freeHead :: rest ∧ s'.list.Threads rest ∧
          s'.held = unpackIndex s.list.freeHead :: s.held ∧ s'.threads t = none ∧
          s'.log = s.log ++ [.popped (some (unpackIndex s.list.freeHead))]) ∧
      (∀ t index seen s',
        s.threads t = some ⟨.release index (.exchange s.list.freeHead), seen⟩ →
        s.next (.run t false) = some s' →
        s'.list.Threads (index :: free) ∧ s'.held = s.held ∧ s'.threads t = none ∧
          s'.log = s.log ++ [.pushed index]) ∧
      (∀ command s', s.next command = some s' → s'.log = s.log ++ [.popped none] →
        free = [] ∧ ∃ t spurious r point, command = .run t spurious ∧ s.threads t = some r ∧
          r.frame = .acquire point ∧
          (point = .loadHead ∨ ∃ head next, point = .exchange head next)) := by
  obtain ⟨free, sound, lone⟩ := run_sound positive small
    (reached.mono fun _ _ _ few => noWrap_of_fewSwaps bufferCount few)
  refine ⟨free, sound.threads, sound.placed.nodup.of_append_left, fun index member => ?_,
    sound.placed, sound.legal, ?_, ?_, fun _ _ => sound.refused_empty⟩
  · exact (sound.placed.covers index).mpr (.inl (List.mem_append_left _ member))
  · intro t next seen s' exchanging stepped few
    rw [next_take exchanging (sound.proper t _ next seen exchanging)] at stepped
    cases stepped
    have successor := sound.successor lone exchanging fun several =>
      noWrap_of_fewSwaps bufferCount few t next seen several rfl exchanging
    obtain ⟨rest, rfl, after⟩ := sound.take exchanging successor
    exact ⟨rest, rfl, after.threads, rfl, Function.update_self .., rfl⟩
  · intro t index seen s' inside stepped
    rw [next_put inside] at stepped
    cases stepped
    have after := sound.put small inside rfl
    exact ⟨after.threads, rfl, Function.update_self .., rfl⟩

/-- One thread loses the head to another between its read and its exchange, and
the other is about to put the index back. -/
def contended : List (Command Bool) :=
  [.acquire false, .run false false, .run false false, .acquire true, .run true false,
    .run true false, .run true false, .run false false, .run false false, .release true 1,
    .run true false, .run true false]

/-- There two indices are in two places, the list and an unfinished `release`. -/
theorem free_list_is_stack_contended :
    let pair := machine Bool 2
    ∃ s, pair.execWithin (fun s _ _ => s.swaps < 2 ^ 32) pair.start contended = some s ∧
      s.log = [.popped (some 1)] ∧ s.releasing true = some 1 ∧
      ∃ free : List UInt32, s.list.Threads free ∧
        Placed (fun index : UInt32 => index.toNat < 2) free s.held s.releasing ∧
        Legal [1, 0] s.log free := by
  intro pair
  have ends : (pair.execWithin (fun s _ _ => s.swaps < 2 ^ 32) pair.start contended).map
      (fun s => (s.log, s.releasing true)) = some ([.popped (some 1)], some 1) := by decide
  obtain ⟨s, ran, shape⟩ := Option.map_eq_some_iff.mp ends
  simp only [Prod.mk.injEq] at shape
  obtain ⟨free, threads, -, -, placed, legal, -⟩ := free_list_is_stack (by decide) (by decide)
    ((Machine.execWithin_reaches contended ran).mono fun _ _ _ => fewSwaps_of_lt)
  exact ⟨s, ran, shape.1, shape.2, free, threads, placed, legal⟩

/-! ## The tag on runs of any length -/

/-- The exchange replaces the head by what its thread read as the successor. It
takes the head and nothing else off the list when that is the successor now,
and then no index callers hold is on the list. -/
structure TakesHead (s s' : System Thread) (next : UInt32) : Prop where
  successor : s.list.next (unpackIndex s.list.freeHead) = next
  tail : ∃ free, s.list.Threads free ∧ s'.list.Threads free.tail ∧
    ∀ index ∈ s'.held, index ∉ free.tail

/-- Every successful exchange of an `acquire` does so, whatever happened since its
read of the head. -/
def TagRulesOutReuse (Thread : Type) [DecidableEq Thread] (bufferCount : ℕ) : Prop :=
  ∀ (s s' : System Thread) t next seen,
    (machine Thread bufferCount).Reachable Machine.anyStep s →
    Exchanging s t s.list.freeHead next seen → s.next (.run t false) = some s' →
    TakesHead s s' next

/-- **A tag that has not come around protects the exchange.** In every run in
which no `acquire` exchanges the head a positive multiple of `2 ^ 32` successful
exchanges after its latest read of it, and in every run of a pool of one, each
successful exchange of an `acquire` finds the successor it read still in place. -/
theorem exchange_takes_head (positive : 1 ≤ bufferCount) (small : bufferCount < 2 ^ 32)
    (reached : (machine Thread bufferCount).Reachable (noWrap bufferCount) s)
    (exchanging : Exchanging s t s.list.freeHead next seen)
    (stepped : s.next (.run t false) = some s')
    (unwrapped : noWrap bufferCount s (.run t false) s') :
    TakesHead s s' next := by
  obtain ⟨free, sound, lone⟩ := run_sound positive small reached
  rw [next_take exchanging (sound.proper t _ next seen exchanging)] at stepped
  cases stepped
  have successor := sound.successor lone exchanging fun several =>
    unwrapped t next seen several rfl exchanging
  obtain ⟨rest, rfl, after⟩ := sound.take exchanging successor
  refine ⟨successor, _, sound.threads, after.threads, fun index owned member => ?_⟩
  exact (List.disjoint_of_nodup_append after.placed.nodup) member owned

/-- The contended exchange takes its head. -/
theorem exchange_takes_head_contended :
    let pair := machine Bool 2
    ∃ s s', pair.execWithin (fun s _ _ => s.swaps < 2 ^ 32) pair.start contended = some s ∧
      s.next (.run false false) = some s' ∧ TakesHead s s' kInvalidIndex := by
  intro pair
  have ends : (pair.execWithin (fun s _ _ => s.swaps < 2 ^ 32) pair.start contended).map (fun s =>
      (s.threads false, s.list.freeHead, s.swaps)) =
      some (some ⟨.acquire (.exchange (pack 0 1) kInvalidIndex), 1⟩, pack 0 1, 1) := by decide
  obtain ⟨s, ran, shape⟩ := Option.map_eq_some_iff.mp ends
  simp only [Prod.mk.injEq] at shape
  obtain ⟨waiting, word, swaps⟩ := shape
  have unwrapped : ∀ (s : System Bool) command s', s.swaps < 2 ^ 32 →
      noWrap 2 s command s' := fun _ _ _ below => noWrap_of_fewSwaps 2 (fewSwaps_of_lt below)
  have exchanging : Exchanging s false s.list.freeHead kInvalidIndex 1 := by
    rw [Exchanging, waiting, word]
  have stepped := next_take exchanging (by rw [word]; decide)
  exact ⟨s, _, ran, stepped, exchange_takes_head (by decide) (by decide)
    ((Machine.execWithin_reaches contended ran).mono unwrapped) exchanging stepped
    (unwrapped s _ _ (by rw [swaps]; decide))⟩

/-! ## A full turn of the tag -/

/-- A thread alone acquires the head. -/
theorem acquire_alone (bufferCount : ℕ) (idle : s.threads t = none)
    (proper : unpackIndex s.list.freeHead ≠ kInvalidIndex) :
    (machine Thread bufferCount).exec s
        [.acquire t, .run t false, .run t false, .run t false] =
      some ⟨⟨pack (s.list.next (unpackIndex s.list.freeHead)) (unpackTag s.list.freeHead + 1),
        s.list.freeNext⟩, s.threads, unpackIndex s.list.freeHead :: s.held, s.swaps + 1,
        s.log ++ [.popped (some (unpackIndex s.list.freeHead))]⟩ := by
  simp only [Machine.exec, machine, System.next, idle, Option.bind_some, System.shift,
    System.run, Function.update_self, FreeList.acquireStep, FreeList.look, if_neg proper,
    System.afterAcquire, and_self, if_true, System.take, System.finish, Function.update_idem]
  rw [← idle, Function.update_eq_self]
  rfl

/-- A thread alone releases a held index. -/
theorem release_alone (bufferCount : ℕ) (idle : s.threads t = none) (owned : index ∈ s.held) :
    (machine Thread bufferCount).exec s
        [.release t index, .run t false, .run t false, .run t false] =
      some ⟨⟨pack index (unpackTag s.list.freeHead + 1),
        Function.update s.list.freeNext index.toNat (unpackIndex s.list.freeHead)⟩, s.threads,
        s.held.erase index, s.swaps + 1, s.log ++ [.pushed index]⟩ := by
  simp only [Machine.exec, machine, System.next, idle, if_pos owned, Option.bind_some,
    System.withdraw, System.shift, System.run, Function.update_self, FreeList.releaseStep,
    System.afterRelease, and_self, if_true, System.put, System.finish, Function.update_idem]
  rw [← idle, Function.update_eq_self]

/-- Releasing an index and acquiring it again leaves the list as it was, with the
tag two further. -/
private theorem turn (bufferCount : ℕ) {rest : List UInt32} (idle : s.threads t = none)
    (owned : s.held = index :: rest) (proper : index ≠ kInvalidIndex) :
    ∃ s', (machine Thread bufferCount).Reaches Machine.anyStep s s' ∧ s'.threads = s.threads ∧
      s'.held = s.held ∧
      s'.list.freeHead = pack (unpackIndex s.list.freeHead) (unpackTag s.list.freeHead + 2) ∧
      ∀ other ≠ index.toNat, s'.list.freeNext other = s.list.freeNext other := by
  have released := release_alone bufferCount idle (owned ▸ List.mem_cons_self ..)
  obtain ⟨s₁, shape⟩ : ∃ s₁, s₁ = (⟨⟨pack index (unpackTag s.list.freeHead + 1),
      Function.update s.list.freeNext index.toNat (unpackIndex s.list.freeHead)⟩, s.threads,
      s.held.erase index, s.swaps + 1, s.log ++ [.pushed index]⟩ : System Thread) := ⟨_, rfl⟩
  rw [← shape] at released
  have top : unpackIndex s₁.list.freeHead = index := by rw [shape, unpackIndex_pack]
  have tag : unpackTag s₁.list.freeHead = unpackTag s.list.freeHead + 1 := by
    rw [shape, unpackTag_pack]
  have successor : s₁.list.next index = unpackIndex s.list.freeHead := by
    rw [shape]
    exact Function.update_self ..
  have acquired := acquire_alone (s := s₁) (t := t) bufferCount (by rw [shape]; exact idle)
    (by rw [top]; exact proper)
  refine ⟨_, (Machine.exec_reaches _ released).trans (Machine.exec_reaches _ acquired),
    by rw [shape], ?_, ?_, fun other elsewhere => ?_⟩
  · show unpackIndex s₁.list.freeHead :: s₁.held = s.held
    rw [top, shape, owned, List.erase_cons_head]
  · show pack (s₁.list.next (unpackIndex s₁.list.freeHead)) (unpackTag s₁.list.freeHead + 1) = _
    rw [top, successor, tag, UInt32.add_assoc]
    rfl
  · rw [shape]
    exact Function.update_of_ne elsewhere _ _

/-- Any number of such turns can pass between two steps of another thread. -/
private theorem turns (bufferCount : ℕ) (index : UInt32) {rest : List UInt32}
    (idle : s.threads t = none) (owned : s.held = index :: rest) (proper : index ≠ kInvalidIndex)
    (number : ℕ) :
    ∃ s', (machine Thread bufferCount).Reaches Machine.anyStep s s' ∧ s'.threads = s.threads ∧
      s'.held = s.held ∧
      s'.list.freeHead = pack (unpackIndex s.list.freeHead)
        (unpackTag s.list.freeHead + .ofNat (2 * number)) ∧
      ∀ other ≠ index.toNat, s'.list.freeNext other = s.list.freeNext other := by
  induction number with
  | zero =>
    refine ⟨s, .refl, rfl, rfl, ?_, fun _ _ => rfl⟩
    exact ((congrArg (pack _) (UInt32.add_zero _)).trans (pack_unpack _)).symm
  | succ number ih =>
    obtain ⟨s₁, reached, threads, held, word, others⟩ := ih
    obtain ⟨s₂, further, threads₂, held₂, word₂, others₂⟩ := turn bufferCount
      (by rw [threads, idle]) (held.trans owned) proper
    refine ⟨s₂, reached.trans further, threads₂.trans threads, held₂.trans held, ?_,
      fun other elsewhere => (others₂ other elsewhere).trans (others other elsewhere)⟩
    rw [word₂, word, unpackIndex_pack, unpackTag_pack, UInt32.add_assoc, Nat.mul_add,
      UInt32.ofNat_add]
    rfl

/-- A thread has read the head and its successor; meanwhile another has acquired
all three indices and put the first one back. -/
private def stale : List (Command Bool) :=
  [.acquire true, .run true false, .run true false,
    .acquire false, .run false false, .run false false, .run false false,
    .acquire false, .run false false, .run false false, .run false false,
    .acquire false, .run false false, .run false false, .run false false,
    .release false 2, .run false false, .run false false, .run false false]

/-- With three buffers, a thread that sleeps through `2 ^ 32` exchanges between
its read and its own installs a successor that a caller holds: the next
`acquire` issues that buffer a second time. -/
theorem full_turn_reissues :
    ¬ TagRulesOutReuse Bool 3 ∧
    ∃ s s' : System Bool, (machine Bool 3).Reachable Machine.anyStep s ∧
      Exchanging s true s.list.freeHead 1 0 ∧ s.next (.run true false) = some s' ∧
      s.list.next (unpackIndex s.list.freeHead) = kInvalidIndex ∧
      1 ∈ s'.held ∧ unpackIndex s'.list.freeHead = 1 := by
  have before : ((machine Bool 3).exec (machine Bool 3).start stale).map (fun s =>
      (s.threads true, s.threads false, s.held, s.list.freeHead, s.list.freeNext 2)) =
      some (some ⟨.acquire (.exchange (pack 2 0) 1), 0⟩, none, [0, 1], pack 2 4,
        kInvalidIndex) := by decide
  obtain ⟨s₀, ran, shape⟩ := Option.map_eq_some_iff.mp before
  simp only [Prod.mk.injEq] at shape
  obtain ⟨waiting, idle, held, word, ended⟩ := shape
  obtain ⟨s, onward, threads, heldNow, wordNow, others⟩ := turns 3 0 idle held
    (by decide) (2 ^ 31 - 2)
  have reached := (Machine.exec_reaches stale ran).trans onward
  have same : s.list.freeHead = pack 2 0 := by
    rw [wordNow, word]
    decide
  have exchanging : Exchanging s true s.list.freeHead 1 0 := by
    rw [Exchanging, threads, waiting, same]
  have stepped := next_take exchanging (by rw [same]; decide)
  have successor : s.list.next (unpackIndex s.list.freeHead) = kInvalidIndex := by
    rw [same, FreeList.next, show (unpackIndex (pack 2 0)).toNat = 2 by decide,
      others 2 (by decide), ended]
  refine ⟨fun claim => ?_, s, _, reached, exchanging, stepped, successor, ?_, unpackIndex_pack ..⟩
  · have intact := (claim s _ true 1 0 reached exchanging stepped).successor
    rw [successor] at intact
    exact absurd intact (by decide)
  · show 1 ∈ unpackIndex s.list.freeHead :: s.held
    rw [heldNow, held]
    exact List.mem_cons_of_mem _ (by decide)

end Ringio.FreeListSystem
