import Mathlib.Logic.Relation
import Mathlib.Data.List.Chain

/-! Machines whose only nondeterminism is the schedule. A command names the
party that moves and settles every choice its move leaves open, so a run is a
list of commands and every interleaving is some list. A guard selects the runs
a result is about without changing what any step does. -/
namespace Ringio

/-- One step of a call ends inside the call or returns from it. -/
inductive Progress (Point Result : Type) where
  | running (point : Point)
  | returned (result : Result)

/-- One start state and a partial step function; `none` refuses the command. -/
structure Machine (σ α : Type) where
  start : σ
  next : σ → α → Option σ

namespace Machine
variable {σ α : Type} {m : Machine σ α} {allowed : σ → α → σ → Prop}
  {s s' : σ}

/-- The guard that excludes no run. -/
def anyStep (_ : σ) (_ : α) (_ : σ) : Prop := True

instance (s : σ) (command : α) (s' : σ) : Decidable (anyStep s command s') := .isTrue trivial

/-- Some allowed command leads from one state to the other. -/
def Step (m : Machine σ α) (allowed : σ → α → σ → Prop) (s s' : σ) : Prop :=
  ∃ command, m.next s command = some s' ∧ allowed s command s'

/-- Finitely many allowed steps lead from one state to the other. -/
def Reaches (m : Machine σ α) (allowed : σ → α → σ → Prop) : σ → σ → Prop :=
  Relation.ReflTransGen (m.Step allowed)

/-- Some allowed run from the start state ends here. -/
def Reachable (m : Machine σ α) (allowed : σ → α → σ → Prop) (s : σ) : Prop :=
  m.Reaches allowed m.start s

theorem Reachable.trans (reached : m.Reachable allowed s) (onward : m.Reaches allowed s s') :
    m.Reachable allowed s' :=
  Relation.ReflTransGen.trans reached onward

/-- A property kept by every allowed step survives any number of them. -/
theorem Reaches.preserves {P : σ → Prop}
    (step : ∀ {s command s'}, P s → m.next s command = some s' → allowed s command s' → P s')
    (onward : m.Reaches allowed s s') (before : P s) : P s' := by
  induction onward with
  | refl => exact before
  | tail _ last ih =>
    obtain ⟨command, moved, ok⟩ := last
    exact step ih moved ok

/-- The invariant rule: true at the start and kept by every allowed step, hence
true wherever an allowed run can end. -/
theorem Reachable.invariant {P : σ → Prop} (base : P m.start)
    (step : ∀ {s command s'}, P s → m.next s command = some s' → allowed s command s' → P s')
    (reached : m.Reachable allowed s) : P s :=
  Reaches.preserves step reached base

/-- The refinement rule: when related states start related and every allowed step of
one machine is matched by a run of the other, whatever one reaches the other does. -/
theorem Reachable.refines {τ β : Type} {m' : Machine τ β} {allowed' : τ → β → τ → Prop}
    (related : σ → τ → Prop) (base : related m.start m'.start)
    (step : ∀ {s command s' a}, related s a → m.next s command = some s' → allowed s command s' →
      ∃ a', m'.Reaches allowed' a a' ∧ related s' a')
    (reached : m.Reachable allowed s) : ∃ a, m'.Reachable allowed' a ∧ related s a := by
  refine reached.invariant (P := fun s => ∃ a, m'.Reachable allowed' a ∧ related s a)
    ⟨_, .refl, base⟩ ?_
  rintro s command s' ⟨a, before, same⟩ moved ok
  obtain ⟨a', onward, same'⟩ := step same moved ok
  exact ⟨a', before.trans onward, same'⟩

/-- Loosening the guard only adds runs. -/
theorem Reaches.mono {looser : σ → α → σ → Prop}
    (loosen : ∀ s command s', allowed s command s' → looser s command s')
    (onward : m.Reaches allowed s s') : m.Reaches looser s s' :=
  Relation.ReflTransGen.mono
    (fun _ _ ⟨command, moved, ok⟩ => ⟨command, moved, loosen _ _ _ ok⟩) _ _ onward

/-- Run a list of commands, refusing the whole list when one is refused. -/
def exec (m : Machine σ α) (s : σ) : List α → Option σ
  | [] => some s
  | command :: rest => (m.next s command).bind fun s' => m.exec s' rest

/-- A schedule that executes is a run. -/
theorem exec_reaches (commands : List α) (ran : m.exec s commands = some s') :
    m.Reaches anyStep s s' := by
  induction commands generalizing s with
  | nil =>
    cases ran
    exact .refl
  | cons command rest ih =>
    obtain ⟨middle, moved, later⟩ := Option.bind_eq_some_iff.mp ran
    exact .head ⟨command, moved, trivial⟩ (ih later)

/-- The states a list of commands goes through, the first one left out. -/
def trace (m : Machine σ α) (s : σ) : List α → Option (List σ)
  | [] => some []
  | command :: rest => (m.next s command).bind fun s' => (m.trace s' rest).map (s' :: ·)

/-- Each of them is one step from the one before. -/
theorem trace_chain (commands : List α) {states : List σ} (ran : m.trace s commands = some states) :
    List.IsChain (m.Step anyStep) (s :: states) := by
  induction commands generalizing s states with
  | nil =>
    cases ran
    exact .singleton s
  | cons command rest ih =>
    obtain ⟨middle, moved, later⟩ := Option.bind_eq_some_iff.mp ran
    obtain ⟨states, traced, rfl⟩ := Option.map_eq_some_iff.mp later
    exact .cons_cons ⟨command, moved, trivial⟩ (ih traced)

/-- Each of them is reached. -/
theorem trace_reaches (commands : List α) {states : List σ}
    (ran : m.trace s commands = some states) {x : σ} (member : x ∈ states) :
    m.Reaches anyStep s x := by
  induction commands generalizing s states with
  | nil =>
    cases ran
    cases member
  | cons command rest ih =>
    obtain ⟨middle, moved, later⟩ := Option.bind_eq_some_iff.mp ran
    obtain ⟨states, traced, rfl⟩ := Option.map_eq_some_iff.mp later
    rcases List.mem_cons.mp member with rfl | member
    · exact .single ⟨command, moved, trivial⟩
    · exact .head ⟨command, moved, trivial⟩ (ih traced member)

/-- Run a list of commands, refusing also the steps the guard excludes. -/
def execWithin (m : Machine σ α) (allowed : σ → α → σ → Prop)
    [∀ s command s', Decidable (allowed s command s')] (s : σ) : List α → Option σ
  | [] => some s
  | command :: rest => (m.next s command).bind fun s' =>
    if allowed s command s' then m.execWithin allowed s' rest else none

/-- A schedule that executes within the guard is a run of it. -/
theorem execWithin_reaches [∀ s command s', Decidable (allowed s command s')] (commands : List α)
    (ran : m.execWithin allowed s commands = some s') : m.Reaches allowed s s' := by
  induction commands generalizing s with
  | nil =>
    cases ran
    exact .refl
  | cons command rest ih =>
    obtain ⟨middle, moved, later⟩ := Option.bind_eq_some_iff.mp ran
    split at later
    · rename_i ok
      exact .head ⟨command, moved, ok⟩ (ih later)
    · cases later

/-- These commands, each allowed, lead from one state to the other. -/
inductive Follows (m : Machine σ α) (allowed : σ → α → σ → Prop) : σ → List α → σ → Prop where
  | done (s : σ) : Follows m allowed s [] s
  | step {s middle last : σ} {command : α} {rest : List α} (moved : m.next s command = some middle)
      (ok : allowed s command middle) (later : Follows m allowed middle rest last) :
      Follows m allowed s (command :: rest) last

theorem Follows.reaches {commands : List α} (follows : m.Follows allowed s commands s') :
    m.Reaches allowed s s' := by
  induction follows with
  | done s => exact .refl
  | step moved ok _ ih => exact .head ⟨_, moved, ok⟩ ih

theorem execWithin_follows [∀ s command s', Decidable (allowed s command s')] (commands : List α)
    (ran : m.execWithin allowed s commands = some s') : m.Follows allowed s commands s' := by
  induction commands generalizing s with
  | nil =>
    cases ran
    exact .done _
  | cons command rest ih =>
    obtain ⟨middle, moved, later⟩ := Option.bind_eq_some_iff.mp ran
    split at later
    · rename_i ok
      exact .step moved ok (ih later)
    · cases later

/-- What a run costs, step by step. -/
def spent (m : Machine σ α) (cost : σ → α → ℕ) (s : σ) : List α → ℕ
  | [] => 0
  | command :: rest =>
    cost s command + ((m.next s command).map fun s' => m.spent cost s' rest).getD 0

/-- The ranking rule: when every allowed step pays its cost out of the rank, no
run costs more than the rank it starts with. -/
theorem Follows.spent_le {P : σ → Prop} (rank : σ → ℕ) (cost : σ → α → ℕ)
    (step : ∀ {s command s'}, P s → m.next s command = some s' → allowed s command s' →
      P s' ∧ rank s' + cost s command ≤ rank s)
    {commands : List α} (follows : m.Follows allowed s commands s') (holds : P s) :
    P s' ∧ rank s' + m.spent cost s commands ≤ rank s := by
  induction follows with
  | done => exact ⟨holds, le_rfl⟩
  | step moved ok _ ih =>
    obtain ⟨kept, paid⟩ := step holds moved ok
    obtain ⟨last, later⟩ := ih kept
    refine ⟨last, ?_⟩
    simp only [spent, moved, Option.map_some, Option.getD_some]
    omega

end Machine
end Ringio
