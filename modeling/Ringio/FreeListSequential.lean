import Ringio.FreeList
import Ringio.PoolLayout

/-! Calls of `acquire` and `release` that do not overlap, from a fresh pool on.
A call alone returns whatever its compare-exchanges do, so a history is a list
of calls; callers release what they hold. -/
namespace Ringio

/-- The compare-exchanges executed at a point: one or none. -/
def AcquirePoint.exchanges : AcquirePoint → ℕ
  | .exchange _ _ => 1
  | _ => 0

def ReleasePoint.exchanges : ReleasePoint → ℕ
  | .exchange _ => 1
  | _ => 0

namespace FreeList
open LinkedStack

/-- `acquire` alone on the pool, for at most `fuel` accesses. Its first `spurious`
compare-exchanges fail spuriously. -/
def runAcquire : (fuel spurious : ℕ) → FreeList → AcquirePoint → Option (UInt32 × FreeList)
  | 0, _, _, _ => none
  | fuel + 1, spurious, list, point =>
    match list.acquireStep (0 < spurious) point with
    | (list', .running point') => runAcquire fuel (spurious - point.exchanges) list' point'
    | (list', .returned index) => some (index, list')

/-- `release` alone on the pool. -/
def runRelease (index : UInt32) : (fuel spurious : ℕ) → FreeList → ReleasePoint → Option FreeList
  | 0, _, _, _ => none
  | fuel + 1, spurious, list, point =>
    match list.releaseStep index (0 < spurious) point with
    | (list', .running point') => runRelease index fuel (spurious - point.exchanges) list' point'
    | (list', .returned ()) => some list'

/-- A whole `acquire`. Two accesses for each failure and three are enough. -/
def acquire (list : FreeList) (spurious : ℕ) : Option (UInt32 × FreeList) :=
  runAcquire (2 * spurious + 3) spurious list .loadHead

/-- A whole `release`. -/
def release (list : FreeList) (index : UInt32) (spurious : ℕ) : Option FreeList :=
  runRelease index (2 * spurious + 3) spurious list .loadHead

variable {list : FreeList} {free : List UInt32} {index : UInt32}

/-- `acquire` takes the first index off, or returns `kInvalidIndex` from an empty
list. -/
theorem acquire_threads (threads : list.Threads free) (spurious : ℕ) :
    ∃ list', list.acquire spurious = some (free.head?.getD kInvalidIndex, list') ∧
      list'.Threads free.tail := by
  cases free with
  | nil =>
    have ended : unpackIndex list.freeHead = kInvalidIndex := threads
    refine ⟨list, ?_, threads⟩
    simp only [acquire, runAcquire, acquireStep, look, ended, if_true]
    rfl
  | cons top free =>
    obtain ⟨first, proper, rest⟩ := threads
    subst first
    refine ⟨{ list with
      freeHead := pack (list.next (unpackIndex list.freeHead)) (unpackTag list.freeHead + 1) },
      ?_, ?_⟩
    · rw [acquire, runAcquire]
      simp only [acquireStep, look, if_neg proper]
      induction spurious with
      | zero => simp [runAcquire, acquireStep, AcquirePoint.exchanges, next]
      | succ spurious ih =>
        rw [runAcquire]
        simp only [acquireStep]
        rw [runAcquire]
        simpa [acquireStep, look, proper, AcquirePoint.exchanges, Nat.mul_add] using ih
    · show Threaded list.next kInvalidIndex (unpackIndex (pack _ _)) free
      rw [unpackIndex_pack]
      exact rest

/-- From the link on, `release` succeeds once its spurious failures are used up. -/
private theorem runRelease_succeeds (list : FreeList) (index : UInt32) (spurious : ℕ) :
    runRelease index (2 * spurious + 2) spurious list (.storeNext list.freeHead) =
      some ⟨pack index (unpackTag list.freeHead + 1),
        Function.update list.freeNext index.toNat (unpackIndex list.freeHead)⟩ := by
  induction spurious generalizing list with
  | zero => simp [runRelease, releaseStep, ReleasePoint.exchanges]
  | succ spurious ih =>
    have again := ih { list with
      freeNext := Function.update list.freeNext index.toNat (unpackIndex list.freeHead) }
    rw [Function.update_idem] at again
    rw [runRelease]
    simp only [releaseStep]
    rw [runRelease]
    simpa [releaseStep, ReleasePoint.exchanges, Nat.mul_add] using again

/-- `release` puts its index on top. -/
theorem release_threads (threads : list.Threads free) (proper : index ≠ kInvalidIndex)
    (fresh : index ∉ free) (spurious : ℕ) :
    ∃ list', list.release index spurious = some list' ∧ list'.Threads (index :: free) := by
  refine ⟨_, runRelease_succeeds list index spurious, unpackIndex_pack .., proper, ?_⟩
  have linked : next ⟨pack index (unpackTag list.freeHead + 1),
      Function.update list.freeNext index.toNat (unpackIndex list.freeHead)⟩ index =
      unpackIndex list.freeHead := Function.update_self ..
  rw [linked]
  refine threads.congr fun node member => Function.update_of_ne ?_ _ _
  intro same
  cases UInt32.toNat_inj.mp same
  exact fresh member

/-- So many calls of `acquire` in a row. -/
def acquires (list : FreeList) : (spurious : List ℕ) → Option (List UInt32 × FreeList)
  | [] => some ([], list)
  | first :: rest => (list.acquire first).bind fun (index, list') =>
    (acquires list' rest).map fun (later, last) => (index :: later, last)

/-- As many as there are indices on the list return them in its order. -/
theorem acquires_threads (threads : list.Threads free) (spurious : List ℕ)
    (all : spurious.length = free.length) :
    ∃ last, list.acquires spurious = some (free, last) := by
  induction free generalizing list spurious with
  | nil =>
    cases List.length_eq_zero_iff.mp all
    exact ⟨list, rfl⟩
  | cons top free ih =>
    obtain ⟨first, rest, rfl⟩ := List.exists_cons_of_length_eq_add_one all
    obtain ⟨list', returned, left⟩ := acquire_threads threads first
    obtain ⟨last, later⟩ := ih left rest (Nat.succ_injective all)
    exact ⟨last, by rw [acquires, returned]; simp [later]⟩

theorem length_initial (bufferCount : ℕ) : (initial bufferCount).length = bufferCount := by
  simp [initial]

end FreeList

namespace FreeListSequential
open LinkedStack FreeList

/-- The free list, the indices checked out, and the calls so far. -/
structure Checkout where
  list : FreeList
  held : List UInt32
  log : List (Event UInt32)

/-- A call, with its number of spurious failures. -/
inductive Call where
  | acquire (spurious : ℕ)
  | release (index : UInt32) (spurious : ℕ)

/-- One whole call; only an index that is checked out may be released. -/
def Checkout.next (s : Checkout) : Call → Option Checkout
  | .acquire spurious => (s.list.acquire spurious).map fun (index, list) =>
    if index = kInvalidIndex then { s with list, log := s.log ++ [.popped none] }
    else ⟨list, index :: s.held, s.log ++ [.popped (some index)]⟩
  | .release index spurious =>
    if index ∈ s.held then
      (s.list.release index spurious).map fun list =>
        ⟨list, s.held.erase index, s.log ++ [.pushed index]⟩
    else none

/-- Sequential histories of a pool that was built with this list. -/
def histories (list : FreeList) : Machine Checkout Call where
  start := ⟨list, [], []⟩
  next := Checkout.next

/-- The indices `acquire` has ever returned. -/
def issued (log : List (Event UInt32)) : List UInt32 :=
  log.filterMap fun
    | .popped index => index
    | .pushed _ => none

/-- Released and not acquired again since, the latest first. -/
def recycled (log : List (Event UInt32)) : List UInt32 :=
  log.foldl (fun waiting event =>
    match event with
    | .pushed index => index :: waiting
    | .popped (some index) => waiting.erase index
    | .popped none => waiting) []

/-- The order in which a pool of `count` buffers has its indices: the recycled
ones, then those never issued, which are the lowest. -/
structure Ordered (count : ℕ) (s : Checkout) (fresh : ℕ) : Prop where
  threads : s.list.Threads (recycled s.log ++ initial fresh)
  placed : (recycled s.log ++ initial fresh ++ s.held).Perm (initial count)
  issued : ∀ index, index ∈ issued s.log ↔ fresh ≤ index.toNat ∧ index.toNat < count

variable {count fresh : ℕ} {s s' : Checkout}

theorem Ordered.nodup (ordered : Ordered count s fresh) (small : count < 2 ^ 32) :
    (recycled s.log ++ initial fresh ++ s.held).Nodup :=
  ordered.placed.nodup_iff.mpr (initial_nodup small.le)

/-- Every index of the pool is below the count, free or held. -/
theorem Ordered.lt (ordered : Ordered count s fresh) {index : UInt32}
    (member : index ∈ recycled s.log ++ initial fresh ++ s.held) : index.toNat < count :=
  mem_initial.mp (ordered.placed.mem_iff.mp member)

theorem Ordered.proper (ordered : Ordered count s fresh) (small : count < 2 ^ 32) {index : UInt32}
    (member : index ∈ recycled s.log ++ initial fresh ++ s.held) : index ≠ kInvalidIndex := by
  rintro rfl
  have below := ordered.lt member
  simp only [kInvalidIndex, UInt32.reduceToNat] at below
  omega

theorem Ordered.lengths (ordered : Ordered count s fresh) :
    (recycled s.log ++ initial fresh).length + s.held.length = count := by
  rw [← List.length_append, ordered.placed.length_eq, length_initial]

private theorem recycled_concat (log : List (Event UInt32)) (event : Event UInt32) :
    recycled (log ++ [event]) =
      match event with
      | .pushed index => index :: recycled log
      | .popped (some index) => (recycled log).erase index
      | .popped none => recycled log := by
  rw [recycled, List.foldl_append]
  rfl

private theorem issued_concat (log : List (Event UInt32)) (event : Event UInt32) :
    issued (log ++ [event]) = issued log ++ issued [event] :=
  List.filterMap_append

/-- What an `acquire` does: nothing to an empty list, else it checks out the first
index. -/
theorem acquire_moved {free : List UInt32} {spurious : ℕ} (threads : s.list.Threads free)
    (moved : s.next (.acquire spurious) = some s') :
    (free = [] ∧ ∃ list', list'.Threads [] ∧
      s' = { s with list := list', log := s.log ++ [.popped none] }) ∨
    ∃ top rest list', free = top :: rest ∧ list'.Threads rest ∧
      s' = ⟨list', top :: s.held, s.log ++ [.popped (some top)]⟩ := by
  obtain ⟨list', returned, left⟩ := acquire_threads threads spurious
  simp only [Checkout.next, returned, Option.map_some, Option.some.injEq] at moved
  cases free with
  | nil => exact .inl ⟨rfl, list', left, moved.symm⟩
  | cons top rest =>
    have proper : top ≠ kInvalidIndex := threads.2.1
    rw [List.head?_cons, Option.getD_some, if_neg proper] at moved
    exact .inr ⟨top, rest, list', rfl, left, moved.symm⟩

/-- An `acquire` keeps the order: it takes the latest recycled index, or the
highest never issued. -/
theorem acquire_ordered (small : count < 2 ^ 32) (ordered : Ordered count s fresh) {spurious : ℕ}
    (moved : s.next (.acquire spurious) = some s') : ∃ fresh', Ordered count s' fresh' := by
  have placed := ordered.placed
  rcases acquire_moved ordered.threads moved with
    ⟨empty, list', left, rfl⟩ | ⟨top, rest, list', contents, left, rfl⟩
  · refine ⟨fresh, ?_, ?_, fun index => ?_⟩
    · rw [recycled_concat, empty]
      exact left
    · rw [recycled_concat]
      exact placed
    · rw [issued_concat, show issued [.popped none] = [] from rfl, List.append_nil]
      exact ordered.issued index
  · have nodup := ordered.nodup small
    have member : top ∈ recycled s.log ++ initial fresh ++ s.held := by
      rw [contents]
      exact List.mem_cons_self
    have last := ordered.lt member
    cases waiting : recycled s.log with
    | cons top' rest' =>
      rw [waiting] at contents nodup placed
      cases contents
      have again : fresh ≤ top.toNat := by
        by_contra below
        have elsewhere := (List.nodup_cons.mp (List.nodup_append.mp nodup).1).1
        exact elsewhere (List.mem_append_right _ (mem_initial.mpr (Nat.not_le.mp below)))
      have log : recycled (s.log ++ [.popped (some top)]) = rest' := by
        rw [recycled_concat, waiting]
        exact List.erase_cons_head ..
      refine ⟨fresh, ?_, ?_, fun index => ?_⟩
      · rw [log]
        exact left
      · rw [log]
        exact List.perm_middle.trans placed
      · rw [issued_concat, List.mem_append, ordered.issued]
        constructor
        · rintro (before | now)
          · exact before
          · cases List.mem_singleton.mp now
            exact ⟨again, last⟩
        · exact .inl
    | nil =>
      have log : recycled (s.log ++ [.popped (some top)]) = [] := by
        rw [recycled_concat, waiting]
        rfl
      rw [waiting] at contents placed
      cases fresh with
      | zero => cases contents
      | succ fresh =>
        rw [initial_succ] at contents placed
        cases contents
        have bound := ordered.lengths
        rw [List.length_append, length_initial] at bound
        have value : (UInt32.ofNat fresh).toNat = fresh := by
          rw [UInt32.toNat_ofNat', Nat.mod_eq_of_lt (by omega)]
        refine ⟨fresh, ?_, ?_, fun index => ?_⟩
        · rw [log]
          exact left
        · rw [log]
          exact List.perm_middle.trans placed
        · rw [issued_concat, List.mem_append, ordered.issued]
          constructor
          · rintro (before | now)
            · exact ⟨by omega, before.2⟩
            · cases List.mem_singleton.mp now
              omega
          · rintro ⟨low, high⟩
            by_cases now : index.toNat = fresh
            · refine .inr (List.mem_singleton.mpr (UInt32.toNat_inj.mp ?_))
              rw [value, now]
            · exact .inl ⟨by omega, high⟩

/-- A `release` puts its index before the others. -/
theorem release_ordered (small : count < 2 ^ 32) (ordered : Ordered count s fresh) {index : UInt32}
    {spurious : ℕ} (moved : s.next (.release index spurious) = some s') :
    Ordered count s' fresh := by
  simp only [Checkout.next] at moved
  split at moved
  · rename_i owned
    have member : index ∈ recycled s.log ++ initial fresh ++ s.held :=
      List.mem_append_right _ owned
    have elsewhere : index ∉ recycled s.log ++ initial fresh := fun free =>
      List.disjoint_of_nodup_append (ordered.nodup small) free owned
    obtain ⟨list', returned, linked⟩ := release_threads ordered.threads
      (ordered.proper small member) elsewhere spurious
    rw [returned] at moved
    cases moved
    refine ⟨?_, ?_, fun other => ?_⟩
    · rw [recycled_concat]
      exact linked
    · rw [recycled_concat]
      have back : (index :: s.held.erase index).Perm s.held := (List.perm_cons_erase owned).symm
      exact (List.perm_middle.symm.trans (back.append_left _)).trans ordered.placed
    · rw [issued_concat, show issued [.pushed index] = [] from rfl, List.append_nil]
      exact ordered.issued other
  · cases moved

/-- Every sequential history of a pool keeps the order. -/
theorem histories_ordered {list : FreeList} (small : count < 2 ^ 32)
    (threads : list.Threads (initial count))
    (reached : (histories list).Reachable Machine.anyStep s) :
    ∃ fresh, Ordered count s fresh := by
  refine reached.invariant (P := fun s => ∃ fresh, Ordered count s fresh) ⟨count, ?_⟩ ?_
  · refine ⟨threads, by simp [histories, recycled], fun index => ?_⟩
    simp only [histories, issued, List.filterMap_nil, List.not_mem_nil, false_iff]
    omega
  · rintro s command s' ⟨fresh, ordered⟩ moved _
    cases command with
    | acquire spurious => exact acquire_ordered small ordered moved
    | release index spurious => exact ⟨fresh, release_ordered small ordered moved⟩

/-! ## Which buffers can be had -/

/-- What a pool of so many buffers owes its callers: `acquire` always returns, with
`kInvalidIndex` exactly when all are checked out and otherwise with an index of
the pool that is not; and the first calls return each index once. -/
structure EveryBufferUsable (list : FreeList) (bufferCount : ℕ) : Prop where
  acquires : ∀ s, (histories list).Reachable Machine.anyStep s → ∀ spurious,
    ∃ index list', s.list.acquire spurious = some (index, list') ∧
      (index = kInvalidIndex ↔ s.held.length = bufferCount) ∧
      (s.held.length ≠ bufferCount → index.toNat < bufferCount ∧ index ∉ s.held)
  first : ∀ spurious : List ℕ, spurious.length = bufferCount →
    ∃ indices last, list.acquires spurious = some (indices, last) ∧
      indices.Perm ((List.range bufferCount).map UInt32.ofNat)

theorem usable_of_threads {list : FreeList} (small : count < 2 ^ 32)
    (threads : list.Threads (initial count)) : EveryBufferUsable list count := by
  constructor
  · intro s reached spurious
    obtain ⟨fresh, ordered⟩ := histories_ordered small threads reached
    obtain ⟨list', returned, -⟩ := acquire_threads ordered.threads spurious
    refine ⟨_, list', returned, ?_⟩
    have lengths := ordered.lengths
    have nodup := ordered.nodup small
    have proper : ∀ index ∈ recycled s.log ++ initial fresh ++ s.held, index ≠ kInvalidIndex :=
      fun _ => ordered.proper small
    have below : ∀ index ∈ recycled s.log ++ initial fresh ++ s.held, index.toNat < count :=
      fun _ => ordered.lt
    cases contents : recycled s.log ++ initial fresh with
    | nil =>
      rw [contents, List.length_nil, Nat.zero_add] at lengths
      exact ⟨⟨fun _ => lengths, fun _ => rfl⟩, fun other => absurd lengths other⟩
    | cons top rest =>
      rw [contents] at lengths nodup proper below
      have member : top ∈ top :: rest ++ s.held := List.mem_cons_self
      have fewer : s.held.length ≠ count := by
        rw [List.length_cons] at lengths
        omega
      refine ⟨⟨fun ended => absurd ended (proper top member), fun all => absurd all fewer⟩,
        fun _ => ⟨below top member, ?_⟩⟩
      exact fun held => (List.nodup_cons.mp nodup).1 (List.mem_append_right _ held)
  · intro spurious all
    obtain ⟨last, returned⟩ := acquires_threads threads spurious (by rw [length_initial, all])
    exact ⟨_, last, returned, List.reverse_perm _⟩

/-- Callers can check out what the list holds and leave it empty. -/
private theorem exhaust (list : FreeList) {free : List UInt32} (threads : s.list.Threads free) :
    ∃ s', (histories list).Reaches Machine.anyStep s s' ∧ s'.list.Threads [] ∧
      s'.held.length = s.held.length + free.length := by
  induction free generalizing s with
  | nil => exact ⟨s, .refl, threads, rfl⟩
  | cons top rest ih =>
    obtain ⟨list', returned, left⟩ := acquire_threads threads 0
    have proper : top ≠ kInvalidIndex := threads.2.1
    have moved : (histories list).next s (.acquire 0) =
        some ⟨list', top :: s.held, s.log ++ [.popped (some top)]⟩ := by
      simp only [histories, Checkout.next, returned, Option.map_some, List.head?_cons,
        Option.getD_some, if_neg proper]
    obtain ⟨s', later, empty, lengths⟩ :=
      ih (s := ⟨list', top :: s.held, s.log ++ [.popped (some top)]⟩) left
    refine ⟨s', .head ⟨_, moved, trivial⟩ later, empty, ?_⟩
    rw [lengths, List.length_cons, List.length_cons]
    omega

/-- A pool of `2 ^ 32` buffers or more runs out after the remainder. -/
theorem small_of_usable {bufferCount : ℕ} (positive : 0 < bufferCount)
    (usable : EveryBufferUsable (.new bufferCount) bufferCount) : bufferCount < 2 ^ 32 := by
  by_contra many
  obtain ⟨s, reached, empty, lengths⟩ := exhaust (.new bufferCount)
    (s := (histories (.new bufferCount)).start) (new_threads_mod positive)
  obtain ⟨index, _, returned, invalid, -⟩ := usable.acquires s reached 0
  obtain ⟨_, returned', -⟩ := acquire_threads empty 0
  rw [returned] at returned'
  cases returned'
  have all := invalid.mp rfl
  rw [lengths, length_initial] at all
  simp only [histories, List.length_nil] at all
  omega

/-- **Every buffer of a pool is usable exactly when there are fewer than
`2 ^ 32`**, for every pair of arguments the constructor accepts: so many 32-bit
indices can be told apart from `kInvalidIndex`. -/
theorem every_buffer_usable_iff {host : Host} {bufferCount bufferSize : UInt64} {pool : Pool}
    (constructed : Pool.construct host bufferCount bufferSize = .ok pool) :
    EveryBufferUsable pool.freeList bufferCount.toNat ↔ bufferCount.toNat < 2 ^ 32 := by
  obtain ⟨nonzero, -, -, base, -, rfl⟩ := Pool.construct_ok constructed
  have positive : 0 < bufferCount.toNat :=
    Nat.pos_of_ne_zero fun zero => nonzero (UInt64.toNat_inj.mp zero)
  constructor
  · exact small_of_usable positive
  · exact fun small => usable_of_threads small (new_threads positive small)

/-- Two buffers are usable. -/
theorem every_buffer_usable_iff_two :
    ∃ pool, Pool.construct Pool.smallHost 2 4096 = .ok pool ∧
      EveryBufferUsable pool.freeList 2 := by
  have constructed : Pool.construct Pool.smallHost 2 4096 = .ok (Pool.build 2 4096 65536) := rfl
  exact ⟨_, constructed, (every_buffer_usable_iff constructed).mpr (by decide)⟩

/-- Of `2 ^ 32` buffers none is: the list starts at the end marker, and the first
`acquire` comes back with nothing checked out. -/
theorem no_buffer_of_two_pow :
    ∃ pool, Pool.construct Pool.smallHost 0x100000000 4096 = .ok pool ∧
      (pool.freeList.acquire 0).map Prod.fst = some kInvalidIndex ∧
      ¬ EveryBufferUsable pool.freeList 0x100000000 := by
  have constructed : Pool.construct Pool.smallHost 0x100000000 4096 =
      .ok (Pool.build 0x100000000 4096 65536) := rfl
  refine ⟨_, constructed, by decide, fun usable => ?_⟩
  exact absurd (small_of_usable (by decide) usable) (by decide)

/-! ## In which order -/

/-- The index the constructor's comment has `acquire` return next: the latest
released and not acquired again since, or else the lowest never issued. -/
def promised (bufferCount : ℕ) (log : List (Event UInt32)) : Option UInt32 :=
  match recycled log with
  | index :: _ => some index
  | [] => ((List.range bufferCount).map UInt32.ofNat).find? (· ∉ issued log)

/-- Every `acquire` of every sequential history on a fresh pool returns it. -/
def IssuesInPromisedOrder (bufferCount : ℕ) : Prop :=
  ∀ s, (histories (.new bufferCount)).Reachable Machine.anyStep s → ∀ spurious,
    ∃ list', s.list.acquire spurious = some ((promised bufferCount s.log).getD kInvalidIndex, list')

/-- What it does return: the latest released and not acquired again since, or else
the highest never issued. -/
theorem issues_highest_first {bufferCount : ℕ} (positive : 0 < bufferCount)
    (small : bufferCount < 2 ^ 32)
    (reached : (histories (.new bufferCount)).Reachable Machine.anyStep s) (spurious : ℕ) :
    ∃ fresh ≤ bufferCount, ∃ list', s.list.acquire spurious =
        some ((recycled s.log ++ initial fresh).head?.getD kInvalidIndex, list') ∧
      ∀ index, index ∈ issued s.log ↔ fresh ≤ index.toNat ∧ index.toNat < bufferCount := by
  obtain ⟨fresh, ordered⟩ := histories_ordered small (new_threads positive small) reached
  obtain ⟨list', returned, -⟩ := acquire_threads ordered.threads spurious
  have bound := ordered.lengths
  rw [List.length_append, length_initial] at bound
  exact ⟨fresh, by omega, list', returned, ordered.issued⟩

/-- With one buffer there is only one order. -/
theorem one_in_promised_order : IssuesInPromisedOrder 1 := by
  intro s reached spurious
  obtain ⟨fresh, bound, list', returned, known⟩ :=
    issues_highest_first Nat.one_pos (by decide) reached spurious
  refine ⟨list', returned.trans ?_⟩
  have zero := known 0
  cases waiting : recycled s.log with
  | cons top rest => simp [promised, waiting]
  | nil =>
    rcases Nat.le_one_iff_eq_zero_or_eq_one.mp bound with rfl | rfl
    · have all : 0 ∈ issued s.log := zero.mpr (by decide)
      simp [promised, waiting, initial, all]
    · have none : 0 ∉ issued s.log := fun member => absurd (zero.mp member) (by decide)
      simp [promised, waiting, initial, none]

/-- With more, the first call already returns the last index. -/
theorem first_acquire {bufferCount : ℕ} (positive : 0 < bufferCount) (small : bufferCount < 2 ^ 32)
    (spurious : ℕ) :
    ∃ list', (FreeList.new bufferCount).acquire spurious =
      some (.ofNat (bufferCount - 1), list') := by
  obtain ⟨fresh, rfl⟩ := Nat.exists_eq_add_one.mpr positive
  obtain ⟨list', returned, -⟩ := acquire_threads (new_threads positive small) spurious
  rw [initial_succ] at returned
  exact ⟨list', returned⟩

/-- **The promised order is the order of a pool of one buffer only.** The list is
threaded so that the last index comes out first. -/
theorem promised_order_iff {bufferCount : ℕ} (positive : 1 ≤ bufferCount)
    (small : bufferCount < 2 ^ 32) : IssuesInPromisedOrder bufferCount ↔ bufferCount = 1 := by
  constructor
  · intro ordered
    obtain ⟨_, returned⟩ := ordered (histories (.new bufferCount)).start .refl 0
    obtain ⟨_, returned'⟩ := first_acquire positive small 0
    have lowest : promised bufferCount [] = some (.ofNat 0) := by
      obtain ⟨fresh, rfl⟩ := Nat.exists_eq_add_one.mpr positive
      simp [promised, recycled, issued, List.range_succ_eq_map]
    rw [histories, lowest] at returned
    have same : UInt32.ofNat (bufferCount - 1) = UInt32.ofNat 0 :=
      congrArg Prod.fst (Option.some.inj (returned'.symm.trans returned))
    have values := congrArg UInt32.toNat same
    rw [UInt32.toNat_ofNat', UInt32.toNat_ofNat'] at values
    omega
  · rintro rfl
    exact one_in_promised_order

/-- A pool of one issues index 0 whenever it can. -/
theorem promised_order_iff_one :
    1 ≤ 1 ∧ 1 < 2 ^ 32 ∧ IssuesInPromisedOrder 1 :=
  ⟨le_rfl, by decide, (promised_order_iff le_rfl (by decide)).mpr rfl⟩

/-- A pool of two issues index 1 first. -/
theorem last_index_first :
    ¬ IssuesInPromisedOrder 2 ∧ promised 2 [] = some 0 ∧
      ((FreeList.new 2).acquire 0).map Prod.fst = some 1 := by
  refine ⟨fun ordered => ?_, by decide, by decide⟩
  obtain ⟨_, returned⟩ := ordered (histories (.new 2)).start .refl 0
  have first : ((FreeList.new 2).acquire 0).map Prod.fst = some 0 := by
    rw [histories] at returned
    rw [returned]
    rfl
  exact absurd first (by decide)

end FreeListSequential
end Ringio
