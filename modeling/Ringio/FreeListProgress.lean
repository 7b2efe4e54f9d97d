import Mathlib.Algebra.Group.Action.Defs
import Mathlib.Algebra.Order.BigOperators.Group.Finset
import Ringio.FreeListSequential
import Ringio.FreeListSystem

/-! `acquire` and `release` are lock-free. A call whose compare-exchange fails,
and not spuriously, has been overtaken by one that succeeded; every success
makes each of the other threads go around once more at most. So the accesses of
all threads together are paid for by the calls that return. -/
namespace Ringio.FreeListSystem
open LinkedStack

variable {Thread : Type} [DecidableEq Thread] {s s' : System Thread} {t : Thread}

/-- The accesses a call has still to make if nobody changes the head: it is at its
first load, or it holds the head and has two or one to go, or it holds an old one
and goes around once more. -/
def Frame.due (head : UInt64) : Frame → ℕ
  | .acquire .loadHead | .release _ .loadHead => 3
  | .acquire (.loadNext old) | .release _ (.storeNext old) => if old = head then 2 else 4
  | .acquire (.exchange old _) | .release _ (.exchange old) => if old = head then 1 else 3

def dueOf (head : UInt64) (thread : Option Running) : ℕ :=
  thread.elim 0 fun r => r.frame.due head

/-- The head a call holds costs two accesses when it is no longer the head. -/
theorem Frame.due_le (old head : UInt64) (frame : Frame) :
    frame.due head ≤ frame.due old + 2 := by
  cases frame with
  | acquire point =>
    cases point with
    | loadHead => exact Nat.le_add_right _ _
    | loadNext | exchange =>
      simp only [Frame.due]
      split <;> split <;> omega
  | release index point =>
    cases point with
    | loadHead => exact Nat.le_add_right _ _
    | storeNext | exchange =>
      simp only [Frame.due]
      split <;> split <;> omega

theorem Frame.due_le_four (head : UInt64) (frame : Frame) : frame.due head ≤ 4 := by
  cases frame with
  | acquire point =>
    cases point with
    | loadHead => exact Nat.le_succ 3
    | loadNext | exchange =>
      simp only [Frame.due]
      split <;> omega
  | release index point =>
    cases point with
    | loadHead => exact Nat.le_succ 3
    | storeNext | exchange =>
      simp only [Frame.due]
      split <;> omega

theorem Frame.due_pos (head : UInt64) (frame : Frame) : 1 ≤ frame.due head := by
  cases frame with
  | acquire point =>
    cases point with
    | loadHead => exact Nat.le_add_left 1 2
    | loadNext | exchange =>
      simp only [Frame.due]
      split <;> omega
  | release index point =>
    cases point with
    | loadHead => exact Nat.le_add_left 1 2
    | storeNext | exchange =>
      simp only [Frame.due]
      split <;> omega

/-- One for each access. -/
def access (_ : System Thread) : Command Thread → ℕ
  | .run _ _ => 1
  | _ => 0

/-- One for each call. -/
def started (_ : System Thread) : Command Thread → ℕ
  | .run _ _ => 0
  | _ => 1

def Frame.exchanges : Frame → ℕ
  | .acquire point => point.exchanges
  | .release _ point => point.exchanges

/-- One for each compare-exchange that fails spuriously. -/
def failed (s : System Thread) : Command Thread → ℕ
  | .run t true => (s.threads t).elim 0 fun r => r.frame.exchanges
  | _ => 0

/-! ## One step -/

/-- What an access does: the thread goes on, with the head as it was, or its call
returns. -/
inductive Accessed (s : System Thread) (t : Thread) (r : Running) (spurious : Bool)
    (s' : System Thread) : Prop where
  | onward {later : Running} (threads : s'.threads = Function.update s.threads t (some later))
      (head : s'.list.freeHead = s.list.freeHead) (log : s'.log.length = s.log.length)
      (pays : later.frame.due s.list.freeHead + 1 ≤
        r.frame.due s.list.freeHead + 2 * if spurious then r.frame.exchanges else 0)
  | returns (threads : s'.threads = Function.update s.threads t none)
      (log : s'.log.length = s.log.length + 1)

theorem accessed_look {r : Running} {spurious : Bool}
    (pays : 3 ≤ r.frame.due s.list.freeHead + 2 * if spurious then r.frame.exchanges else 0) :
    Accessed s t r spurious (s.afterAcquire t r s.list (FreeList.look s.list.freeHead)) := by
  unfold FreeList.look
  split
  · rename_i ended
    simp only [System.afterAcquire, if_true]
    exact .returns rfl (by simp [System.finish])
  · refine .onward rfl rfl rfl ?_
    simp only [Frame.due, if_true]
    exact pays

/-- A compare-exchange fails spuriously or on an old head. -/
theorem due_lost {head old : UInt64} {spurious : Bool} (lost : ¬ (head = old ∧ spurious = false)) :
    3 ≤ (if old = head then 1 else 3) + 2 * if spurious then 1 else 0 := by
  split
  · rename_i same
    cases spurious with
    | true => exact le_rfl
    | false => exact absurd ⟨same.symm, rfl⟩ lost
  · exact Nat.le_add_right 3 _

/-- Every access is one of these. -/
theorem accessed {spurious : Bool} (moved : s.next (.run t spurious) = some s') :
    ∃ r, s.threads t = some r ∧ Accessed s t r spurious s' := by
  simp only [System.next, System.run] at moved
  split at moved
  · cases moved
  · rename_i r inside
    refine ⟨r, inside, ?_⟩
    split at moved
    · rename_i point frame
      cases moved
      cases point with
      | loadHead => exact accessed_look (by rw [frame]; exact Nat.le_add_right 3 _)
      | loadNext old =>
        refine .onward rfl rfl rfl ?_
        rw [frame]
        simp only [Frame.due]
        split <;> omega
      | exchange old next =>
        simp only [FreeList.acquireStep]
        split
        · simp only [System.afterAcquire]
          split
          · exact .returns rfl (by simp [System.finish])
          · exact .returns rfl (by simp [System.take, System.finish])
        · rename_i lost
          refine accessed_look ?_
          rw [frame]
          exact due_lost lost
    · rename_i index point frame
      cases moved
      cases point with
      | loadHead =>
        refine .onward rfl rfl rfl ?_
        rw [frame]
        simp only [Frame.due, if_true]
        omega
      | storeNext old =>
        refine .onward rfl rfl rfl ?_
        rw [frame]
        simp only [Frame.due]
        split <;> omega
      | exchange old =>
        simp only [FreeList.releaseStep]
        split
        · exact .returns rfl (by simp [System.afterRelease, System.put, System.finish])
        · rename_i lost
          refine .onward rfl rfl rfl ?_
          rw [frame]
          simp only [Frame.due, if_true]
          exact due_lost lost

/-! ## All threads -/

variable [Fintype Thread]

/-- What all calls in progress have still to do. -/
def System.dues (s : System Thread) : ℕ := ∑ t, dueOf s.list.freeHead (s.threads t)

/-- The threads inside a call. -/
def System.busy (s : System Thread) : Finset Thread :=
  Finset.univ.filter fun t => (s.threads t).isSome

omit [DecidableEq Thread] in
theorem dues_le (s : System Thread) : s.dues ≤ 4 * s.busy.card := by
  have idle : s.dues = ∑ t ∈ s.busy, dueOf s.list.freeHead (s.threads t) := by
    refine (Finset.sum_subset (Finset.subset_univ _) fun t _ out => ?_).symm
    have none : s.threads t = none := by simpa [System.busy] using out
    rw [none]
    rfl
  rw [idle]
  refine (Finset.sum_le_card_nsmul _ _ 4 fun t _ => ?_).trans_eq ?_
  · cases s.threads t with
    | none => exact Nat.zero_le 4
    | some r => exact r.frame.due_le_four _
  · rw [smul_eq_mul, Nat.mul_comm]

theorem dues_split (s : System Thread) (t : Thread) :
    s.dues = dueOf s.list.freeHead (s.threads t) +
      ∑ t' ∈ Finset.univ.erase t, dueOf s.list.freeHead (s.threads t') :=
  (Finset.add_sum_erase _ _ (Finset.mem_univ t)).symm

/-- A thread that changes changes its own due, with the head as it was. -/
theorem dues_update {after : Option Running}
    (threads : s'.threads = Function.update s.threads t after)
    (head : s'.list.freeHead = s.list.freeHead) :
    s'.dues + dueOf s.list.freeHead (s.threads t) = s.dues + dueOf s.list.freeHead after := by
  have others : ∑ t' ∈ Finset.univ.erase t, dueOf s.list.freeHead (s'.threads t') =
      ∑ t' ∈ Finset.univ.erase t, dueOf s.list.freeHead (s.threads t') := by
    refine Finset.sum_congr rfl fun t' other => ?_
    rw [threads, Function.update_of_ne (Finset.ne_of_mem_erase other)]
  rw [dues_split s' t, dues_split s t, head, others, threads, Function.update_self]
  omega

/-- A call that returns may cost the others two accesses each. -/
theorem dues_return (threads : s'.threads = Function.update s.threads t none) :
    s'.dues + dueOf s.list.freeHead (s.threads t) ≤ s.dues + 2 * (Fintype.card Thread - 1) := by
  have others : ∑ t' ∈ Finset.univ.erase t, dueOf s'.list.freeHead (s'.threads t') ≤
      ∑ t' ∈ Finset.univ.erase t, (dueOf s.list.freeHead (s.threads t') + 2) := by
    refine Finset.sum_le_sum fun t' other => ?_
    rw [threads, Function.update_of_ne (Finset.ne_of_mem_erase other)]
    cases s.threads t' with
    | none => exact Nat.zero_le _
    | some r => exact r.frame.due_le _ _
  rw [Finset.sum_add_distrib, Finset.sum_const, Finset.card_erase_of_mem (Finset.mem_univ t),
    Finset.card_univ, smul_eq_mul] at others
  rw [dues_split s' t, dues_split s t, threads, Function.update_self]
  simp only [dueOf, Option.elim_none]
  rw [threads] at others
  simp only [dueOf] at others
  omega

/-- What a step costs is due, comes with a new call or a spurious failure, or is
owed to a call that returns. -/
theorem step_pays {command : Command Thread} (moved : s.next command = some s') :
    s.log.length ≤ s'.log.length ∧
    s'.dues + access s command ≤ s.dues + 3 * started s command + 2 * failed s command +
      2 * (Fintype.card Thread - 1) * (s'.log.length - s.log.length) := by
  cases command with
  | acquire t =>
    simp only [System.next] at moved
    split at moved
    · rename_i idle
      cases moved
      have dues : (s.shift t ⟨.acquire .loadHead, 0⟩).dues + dueOf s.list.freeHead (s.threads t) =
          s.dues + dueOf s.list.freeHead (some ⟨.acquire .loadHead, 0⟩) := dues_update rfl rfl
      rw [idle] at dues
      refine ⟨le_rfl, ?_⟩
      simp only [access, started, failed, dueOf, Option.elim_none, Option.elim_some,
        Frame.due] at dues ⊢
      omega
    · cases moved
  | release t index =>
    simp only [System.next] at moved
    split at moved
    · rename_i idle
      split at moved
      · cases moved
        have dues : (s.withdraw t index).dues + dueOf s.list.freeHead (s.threads t) =
            s.dues + dueOf s.list.freeHead (some ⟨.release index .loadHead, 0⟩) :=
          dues_update rfl rfl
        rw [idle] at dues
        refine ⟨le_rfl, ?_⟩
        simp only [access, started, failed, dueOf, Option.elim_none, Option.elim_some,
          Frame.due] at dues ⊢
        omega
      · cases moved
    · cases moved
  | run t spurious =>
    obtain ⟨r, inside, did⟩ := accessed moved
    have spuriously : failed s (.run t spurious) =
        if spurious then r.frame.exchanges else 0 := by
      cases spurious with
      | true => simp [failed, inside]
      | false => rfl
    cases did with
    | onward threads head log pays =>
      have dues := dues_update threads head
      rw [inside] at dues
      simp only [access, started, dueOf, Option.elim_some, spuriously, log] at dues ⊢
      refine ⟨le_rfl, ?_⟩
      omega
    | returns threads log =>
      have dues := dues_return threads
      rw [inside] at dues
      have one : s'.log.length - s.log.length = 1 := by omega
      have some_ : 1 ≤ r.frame.due s.list.freeHead := r.frame.due_pos _
      simp only [access, started, dueOf, Option.elim_some, one] at dues ⊢
      omega

theorem run_pays {bufferCount : ℕ} {commands : List (Command Thread)}
    (follows : (machine Thread bufferCount).Follows Machine.anyStep s commands s') :
    s.log.length ≤ s'.log.length ∧
    s'.dues + (machine Thread bufferCount).spent access s commands ≤
      s.dues + 3 * (machine Thread bufferCount).spent started s commands +
        2 * (machine Thread bufferCount).spent failed s commands +
        2 * (Fintype.card Thread - 1) * (s'.log.length - s.log.length) := by
  induction follows with
  | done s => exact ⟨le_rfl, by simp [Machine.spent]⟩
  | @step s middle last command rest moved ok later ih =>
    obtain ⟨grown, paid⟩ := step_pays moved
    obtain ⟨grown', paid'⟩ := ih
    have both : 2 * (Fintype.card Thread - 1) * (last.log.length - s.log.length) =
        2 * (Fintype.card Thread - 1) * (middle.log.length - s.log.length) +
          2 * (Fintype.card Thread - 1) * (last.log.length - middle.log.length) := by
      rw [← Nat.mul_add]
      congr 1
      omega
    refine ⟨grown.trans grown', ?_⟩
    simp only [Machine.spent, moved, Option.map_some, Option.getD_some, both]
    omega

/-- **The pool is lock-free.** In every run of any number of threads, from any
state: all the accesses together are at most three for each call started, two for
each compare-exchange that fails spuriously, twice the other threads for each call
that returns, and four for each thread in a call at the beginning. So while no new
call starts and no compare-exchange fails spuriously, of any five accesses for each
thread in a call one returns, wherever the others have stopped. -/
theorem accesses_paid_for {bufferCount : ℕ} {commands : List (Command Thread)}
    (follows : (machine Thread bufferCount).Follows Machine.anyStep s commands s') :
    (machine Thread bufferCount).spent access s commands ≤
      4 * s.busy.card + 3 * (machine Thread bufferCount).spent started s commands +
        2 * (machine Thread bufferCount).spent failed s commands +
        2 * (Fintype.card Thread - 1) * (s'.log.length - s.log.length) := by
  have paid := (run_pays follows).2
  have bound := dues_le s
  omega

/-- One thread loads the head, another takes it and returns; the first goes around
once more. -/
def overtaken : List (Command Bool) :=
  [.acquire true, .run true false, .acquire false, .run false false, .run false false,
    .run false false, .run true false, .run true false, .run true false, .run true false]

theorem accesses_paid_for_overtaken :
    let pool := machine Bool 2
    ∃ s, pool.execWithin Machine.anyStep pool.start overtaken = some s ∧ s.held = [0, 1] ∧
      s.log.length = 2 ∧
      pool.spent access pool.start overtaken = 8 ∧
      pool.spent access pool.start overtaken ≤ 4 * pool.start.busy.card +
        3 * pool.spent started pool.start overtaken +
        2 * pool.spent failed pool.start overtaken +
        2 * (Fintype.card Bool - 1) * (s.log.length - pool.start.log.length) := by
  intro pool
  have ends : (pool.execWithin Machine.anyStep pool.start overtaken).map (fun s =>
      (s.held, s.log.length)) = some ([0, 1], 2) := by
    decide
  obtain ⟨s, ran, shape⟩ := Option.map_eq_some_iff.mp ends
  simp only [Prod.mk.injEq] at shape
  exact ⟨s, ran, shape.1, shape.2, by decide,
    accesses_paid_for (Machine.execWithin_follows overtaken ran)⟩

end Ringio.FreeListSystem
