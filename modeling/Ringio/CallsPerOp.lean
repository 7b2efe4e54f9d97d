import Mathlib.Algebra.Order.BigOperators.Group.List
import Mathlib.Algebra.BigOperators.Ring.List
import Mathlib.Algebra.Order.Field.Rat
import Mathlib.Data.Nat.Cast.Order.Field
import Mathlib.Data.UInt
import Mathlib.Tactic.NormNum

/-! The `calls_per_op` counter of `iops_throughput_benchmark.cpp`. The backends
registered with `->Threads` divide in every thread and leave the merge to the
framework; the shared-poller backend pools its threads' counts and divides once.
Quotients are exact here. -/
namespace Ringio.Benchmark

/-- The flags of a `benchmark::Counter` that matter for its merge. -/
inductive CounterFlags where
  | kDefaults
  | kAvgThreads
  deriving DecidableEq

/-- `benchmark::Counter`. -/
structure Counter where
  value : ℚ
  flags : CounterFlags

/-- What one thread has counted by the end of a run. -/
structure ThreadCounts where
  calls : UInt64
  ops : UInt64

/-- `ReportCallsPerOp`: the counter is assigned a plain number. -/
def reportCallsPerOp (calls ops : UInt64) : Counter where
  value := if 0 < ops then (calls.toNat : ℚ) / ops.toNat else 0
  flags := .kDefaults

/-- What a `->Threads` backend reports, each thread having reported once. -/
def threadsReport (merge : List Counter → ℚ) (counts : List ThreadCounts) : ℚ :=
  merge (counts.map fun thread => reportCallsPerOp thread.calls thread.ops)

/-- What `BM_SqpollSharedPollerIops` reports. It is one thread to the framework,
and its totals are 64-bit sums. -/
def sharedPollerReport (merge : List Counter → ℚ) (counts : List ThreadCounts) : ℚ :=
  let totalOps := counts.foldl (fun total thread => total + thread.ops) 0
  let totalCalls := counts.foldl (fun total thread => total + thread.calls) 0
  merge [reportCallsPerOp totalCalls totalOps]

/-- Total calls over total completed operations. -/
def totalRatio (counts : List ThreadCounts) : ℚ :=
  ((counts.map fun thread => thread.calls.toNat).sum : ℚ) /
    (counts.map fun thread => thread.ops.toNat).sum

/-- The framework's documented merge: counters without `kAvgThreads` are summed
over the threads of a run. -/
def SumsDefaults (merge : List Counter → ℚ) : Prop :=
  ∀ counters, (∀ counter ∈ counters, counter.flags = .kDefaults) →
    merge counters = (counters.map Counter.value).sum

variable {merge : List Counter → ℚ} {counts : List ThreadCounts}

/-- The merge adds the threads' quotients. -/
theorem threadsReport_eq (sums : SumsDefaults merge) (worked : ∀ thread ∈ counts, 0 < thread.ops) :
    threadsReport merge counts =
      (counts.map fun thread => (thread.calls.toNat : ℚ) / thread.ops.toNat).sum := by
  rw [threadsReport, sums _ (by simp [reportCallsPerOp]), List.map_map]
  refine congrArg List.sum (List.map_congr_left fun thread member => ?_)
  exact if_pos (worked thread member)

/-- The operations of one thread among several are fewer than those of all. -/
theorem ops_lt_total (worked : ∀ thread ∈ counts, 0 < thread.ops) (several : 1 < counts.length)
    {thread : ThreadCounts} (member : thread ∈ counts) :
    thread.ops.toNat < (counts.map fun thread => thread.ops.toNat).sum := by
  obtain ⟨before, after, rfl⟩ := List.append_of_mem member
  have others : ∃ other, other ∈ before ++ after := by
    refine List.exists_mem_of_length_pos ?_
    simp only [List.length_append, List.length_cons] at several ⊢
    omega
  obtain ⟨other, elsewhere⟩ := others
  have positive : 0 < other.ops.toNat :=
    UInt64.lt_iff_toNat_lt.mp (worked other (by
      rcases List.mem_append.mp elsewhere with first | second
      · exact List.mem_append_left _ first
      · exact List.mem_append_right _ (List.mem_cons_of_mem _ second)))
  have counted : other.ops.toNat ≤ ((before ++ after).map fun thread => thread.ops.toNat).sum :=
    List.le_sum_of_mem (List.mem_map_of_mem elsewhere)
  simp only [List.map_append, List.map_cons, List.sum_append, List.sum_cons] at counted ⊢
  omega

/-- One call made among several threads that completed operations is enough: the
sum of the quotients is larger than the quotient of the sums. -/
theorem totalRatio_lt (worked : ∀ thread ∈ counts, 0 < thread.ops) (several : 1 < counts.length)
    {caller : ThreadCounts} (member : caller ∈ counts) (called : caller.calls ≠ 0) :
    totalRatio counts <
      (counts.map fun thread => (thread.calls.toNat : ℚ) / thread.ops.toNat).sum := by
  have shares : totalRatio counts = (counts.map fun thread => (thread.calls.toNat : ℚ) /
      (counts.map fun thread => thread.ops.toNat).sum).sum := by
    simp only [totalRatio, div_eq_mul_inv, List.sum_map_mul_right]
  have positive (thread) (inside : thread ∈ counts) : (0 : ℚ) < thread.ops.toNat :=
    Nat.cast_pos.mpr (UInt64.lt_iff_toNat_lt.mp (worked thread inside))
  have larger (thread) (inside : thread ∈ counts) : (thread.ops.toNat : ℚ) <
      (counts.map fun thread => thread.ops.toNat).sum :=
    Nat.cast_lt.mpr (ops_lt_total worked several inside)
  rw [shares]
  refine List.sum_lt_sum _ _ (fun thread inside => ?_) ⟨caller, member, ?_⟩
  · exact div_le_div_of_nonneg_left (Nat.cast_nonneg _) (positive thread inside)
      (larger thread inside).le
  · refine div_lt_div_of_pos_left (Nat.cast_pos.mpr ?_) (positive caller member)
      (larger caller member)
    exact Nat.pos_of_ne_zero fun zero => called (UInt64.toNat_inj.mp zero)

private theorem totalCalls_zero (none : ∀ thread ∈ counts, thread.calls = 0) (start : UInt64) :
    counts.foldl (fun total thread => total + thread.calls) start = start := by
  induction counts generalizing start with
  | nil => rfl
  | cons first rest ih =>
    rw [List.foldl_cons, none first List.mem_cons_self, UInt64.add_zero]
    exact ih (fun thread later => none thread (List.mem_cons_of_mem _ later)) start

/-- **The reported figure is the total ratio, and the shared poller's, only in a
run of one thread** or one without calls. -/
theorem calls_per_op_exact_iff (sums : SumsDefaults merge) (threads : 1 ≤ counts.length)
    (worked : ∀ thread ∈ counts, 0 < thread.ops) :
    (threadsReport merge counts = totalRatio counts ∧
      threadsReport merge counts = sharedPollerReport merge counts) ↔
    counts.length = 1 ∨ ∀ thread ∈ counts, thread.calls = 0 := by
  have shared : sharedPollerReport merge counts = _ := sums _ (by simp [reportCallsPerOp])
  rw [threadsReport_eq sums worked, shared]
  constructor
  · rintro ⟨same, -⟩
    by_contra other
    rw [not_or, not_forall] at other
    obtain ⟨several, caller, notZero⟩ := other
    obtain ⟨member, called⟩ := Classical.not_imp.mp notZero
    exact (totalRatio_lt worked (by omega) member called).ne' same
  · rintro (one | none)
    · obtain ⟨thread, rfl⟩ := List.length_eq_one_iff.mp one
      have some : 0 < thread.ops := worked thread (List.mem_singleton_self _)
      constructor
      · simp [totalRatio]
      · simp [reportCallsPerOp, some]
    · have calls (thread) (member : thread ∈ counts) : (thread.calls.toNat : ℚ) = 0 := by
        rw [none thread member]
        rfl
      have quotients : (counts.map fun thread =>
          (thread.calls.toNat : ℚ) / thread.ops.toNat).sum = 0 := by
        refine List.sum_eq_zero fun value member => ?_
        obtain ⟨thread, inside, rfl⟩ := List.mem_map.mp member
        rw [calls thread inside, zero_div]
      have numerator : (counts.map fun thread => (thread.calls.toNat : ℚ)).sum = 0 := by
        refine List.sum_eq_zero fun value member => ?_
        obtain ⟨thread, inside, rfl⟩ := List.mem_map.mp member
        exact calls thread inside
      constructor
      · rw [quotients, totalRatio, numerator, zero_div]
      · rw [quotients, totalCalls_zero none]
        simp [reportCallsPerOp]

/-- A merge that sums plain counters and averages the others. -/
def documentedMerge (counters : List Counter) : ℚ :=
  let average := if counters.any (·.flags = .kAvgThreads) then (counters.length : ℚ) else 1
  (counters.map Counter.value).sum / average

theorem documentedMerge_sums : SumsDefaults documentedMerge := by
  intro counters plain
  have none : counters.any (·.flags = .kAvgThreads) = false := by
    simp only [List.any_eq_false, decide_eq_true_eq]
    intro counter member averaged
    rw [plain counter member] at averaged
    cases averaged
  rw [documentedMerge, none]
  exact div_one _

/-- One thread with three calls for four operations. -/
theorem calls_per_op_exact_iff_one :
    threadsReport documentedMerge [⟨3, 4⟩] = totalRatio [⟨3, 4⟩] ∧
      threadsReport documentedMerge [⟨3, 4⟩] = sharedPollerReport documentedMerge [⟨3, 4⟩] :=
  (calls_per_op_exact_iff documentedMerge_sums (by decide) (by decide)).mpr (.inl rfl)

/-- Four threads with one call an operation report 4, and 1 when pooled. -/
theorem four_threads_report_four :
    let counts : List ThreadCounts := [⟨1, 1⟩, ⟨1, 1⟩, ⟨1, 1⟩, ⟨1, 1⟩]
    threadsReport documentedMerge counts = 4 ∧ totalRatio counts = 1 ∧
      sharedPollerReport documentedMerge counts = 1 := by
  intro counts
  have one : UInt64.toNat 1 = 1 := rfl
  refine ⟨?_, ?_, ?_⟩
  · rw [threadsReport_eq documentedMerge_sums (by decide)]
    norm_num [counts, one]
  · norm_num [totalRatio, counts, one]
  · have total : counts.foldl (fun total thread => total + thread.ops) 0 = 4 := by decide
    have calls : counts.foldl (fun total thread => total + thread.calls) 0 = 4 := by decide
    have four : UInt64.toNat 4 = 4 := rfl
    have some : (0 : UInt64) < 4 := by decide
    rw [sharedPollerReport, total, calls, documentedMerge_sums _ (by simp [reportCallsPerOp])]
    simp only [reportCallsPerOp, if_pos some, four]
    norm_num

end Ringio.Benchmark
