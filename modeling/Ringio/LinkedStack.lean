import Mathlib.Algebra.Group.Nat.Defs
import Mathlib.Data.List.Nodup
import Mathlib.Data.List.Perm.Basic
import Mathlib.Logic.Function.Basic
import Mathlib.Tactic.Basic

/-! A stack of nodes threaded through a table of successors, and what a set of
nodes looks like while each of them is on the stack, with a holder, or on its
way back. Nodes are of any type with one value set aside to end the list. -/
namespace Ringio.LinkedStack

variable {ι : Type} {nil first : ι} {next next' : ι → ι} {nodes : List ι}

/-- Following `next` from `first` visits these nodes and ends at `nil`. -/
def Threaded (next : ι → ι) (nil : ι) : ι → List ι → Prop
  | first, [] => first = nil
  | first, node :: rest => first = node ∧ node ≠ nil ∧ Threaded next nil (next node) rest

/-- Only the successors of the listed nodes matter. -/
theorem Threaded.congr (threaded : Threaded next nil first nodes)
    (same : ∀ node ∈ nodes, next' node = next node) : Threaded next' nil first nodes := by
  induction nodes generalizing first with
  | nil => exact threaded
  | cons node rest ih =>
    obtain ⟨here, proper, later⟩ := threaded
    refine ⟨here, proper, ?_⟩
    rw [same node (List.mem_cons_self ..)]
    exact ih later fun other member => same other (List.mem_cons_of_mem _ member)

/-- A list that does not start at the end marker has a first node. -/
theorem Threaded.cons_of_ne (threaded : Threaded next nil first nodes) (proper : first ≠ nil) :
    ∃ rest, nodes = first :: rest ∧ Threaded next nil (next first) rest := by
  cases nodes with
  | nil => exact absurd threaded proper
  | cons node rest =>
    obtain ⟨rfl, -, later⟩ := threaded
    exact ⟨rest, rfl, later⟩

theorem Threaded.nil_of_eq (threaded : Threaded next nil first nodes) (ended : first = nil) :
    nodes = [] := by
  cases nodes with
  | nil => rfl
  | cons node rest =>
    obtain ⟨rfl, proper, -⟩ := threaded
    exact absurd ended proper

/-! ## Histories -/

/-- A completed stack operation with its outcome. -/
inductive Event (ι : Type) where
  | pushed (node : ι)
  | popped (node : Option ι)
  deriving DecidableEq

/-- What an operation leaves of a last-in first-out stack, if it can have ended
so there. -/
def perform [DecidableEq ι] (stack : List ι) : Event ι → Option (List ι)
  | .pushed node => some (node :: stack)
  | .popped none => if stack = [] then some [] else none
  | .popped (some node) =>
    match stack with
    | [] => none
    | top :: rest => if top = node then some rest else none

/-- The operations can have happened in this order on a stack that went from
`before` to `after`. -/
def Legal [DecidableEq ι] (before : List ι) (log : List (Event ι)) (after : List ι) : Prop :=
  log.foldlM perform before = some after

variable [DecidableEq ι] {before after left : List ι} {log : List (Event ι)} {node : ι}

theorem Legal.concat {event : Event ι} (legal : Legal before log after)
    (performed : perform after event = some left) : Legal before (log ++ [event]) left := by
  unfold Legal at legal ⊢
  rw [List.foldlM_append, legal]
  simpa using performed

theorem Legal.pushed (legal : Legal before log after) (node : ι) :
    Legal before (log ++ [.pushed node]) (node :: after) :=
  legal.concat rfl

theorem Legal.popped (legal : Legal before log (node :: after)) :
    Legal before (log ++ [.popped (some node)]) after :=
  legal.concat (if_pos rfl)

theorem Legal.empty (legal : Legal before log []) : Legal before (log ++ [.popped none]) [] :=
  legal.concat rfl

/-! ## Who has which node -/

/-- Every node of a set is in one place: on the stack, with a holder, or carried
back by one thread. -/
structure Placed {ι Thread : Type} (nodes : ι → Prop) (stack held : List ι)
    (carried : Thread → Option ι) : Prop where
  nodup : (stack ++ held).Nodup
  apart : ∀ t node, carried t = some node → node ∉ stack ++ held
  distinct : ∀ t t' node, carried t = some node → carried t' = some node → t = t'
  covers : ∀ node, nodes node ↔ node ∈ stack ++ held ∨ ∃ t, carried t = some node

variable {Thread : Type} [DecidableEq Thread] {members : ι → Prop} {stack held : List ι}
  {carried : Thread → Option ι} {t : Thread}

omit [DecidableEq ι] [DecidableEq Thread] in
/-- The top of the stack goes to a holder. -/
theorem Placed.take (placed : Placed members (node :: stack) held carried) :
    Placed members stack (node :: held) carried := by
  have moved : (stack ++ node :: held).Perm (node :: stack ++ held) := List.perm_middle
  refine ⟨moved.nodup_iff.mpr placed.nodup, fun t other carries => ?_, placed.distinct,
    fun other => ?_⟩
  · rw [moved.mem_iff]
    exact placed.apart t other carries
  · rw [moved.mem_iff]
    exact placed.covers other

/-- A held node starts on its way back. -/
theorem Placed.withdraw (placed : Placed members stack held carried) (owned : node ∈ held)
    (idle : carried t = none) :
    Placed members stack (held.erase node) (Function.update carried t (some node)) := by
  have moved : (node :: (stack ++ held.erase node)).Perm (stack ++ held) :=
    List.perm_middle.symm.trans ((List.perm_cons_erase owned).symm.append_left stack)
  have split := moved.nodup_iff.mpr placed.nodup
  obtain ⟨gone, nodup⟩ := List.nodup_cons.mp split
  have other_ne {t' : Thread} {other : ι} (carries : carried t' = some other) : other ≠ node := by
    rintro rfl
    exact placed.apart t' other carries (List.mem_append_right _ owned)
  refine ⟨nodup, ?_, ?_, ?_⟩
  · intro t' other carries
    by_cases mine : t' = t
    · subst mine
      rw [Function.update_self] at carries
      cases carries
      exact gone
    · rw [Function.update_of_ne mine] at carries
      intro member
      exact placed.apart t' other carries (moved.mem_iff.mp (List.mem_cons_of_mem _ member))
  · intro t₁ t₂ other carries₁ carries₂
    by_cases mine₁ : t₁ = t <;> by_cases mine₂ : t₂ = t
    · rw [mine₁, mine₂]
    · subst mine₁
      rw [Function.update_self] at carries₁
      rw [Function.update_of_ne mine₂] at carries₂
      cases carries₁
      exact absurd rfl (other_ne carries₂)
    · subst mine₂
      rw [Function.update_self] at carries₂
      rw [Function.update_of_ne mine₁] at carries₁
      cases carries₂
      exact absurd rfl (other_ne carries₁)
    · rw [Function.update_of_ne mine₁] at carries₁
      rw [Function.update_of_ne mine₂] at carries₂
      exact placed.distinct t₁ t₂ other carries₁ carries₂
  · intro other
    rw [placed.covers, ← moved.mem_iff, List.mem_cons]
    constructor
    · rintro ((rfl | member) | ⟨t', carries⟩)
      · exact .inr ⟨t, Function.update_self ..⟩
      · exact .inl member
      · have elsewhere : t' ≠ t := fun same => by
          rw [same, idle] at carries
          cases carries
        exact .inr ⟨t', by rw [Function.update_of_ne elsewhere]; exact carries⟩
    · rintro (member | ⟨t', carries⟩)
      · exact .inl (.inr member)
      · by_cases mine : t' = t
        · subst mine
          rw [Function.update_self] at carries
          cases carries
          exact .inl (.inl rfl)
        · rw [Function.update_of_ne mine] at carries
          exact .inr ⟨t', carries⟩

omit [DecidableEq ι] in
/-- A node on its way back arrives on the stack. -/
theorem Placed.put (placed : Placed members stack held carried) (carries : carried t = some node) :
    Placed members (node :: stack) held (Function.update carried t none) := by
  have fresh := placed.apart t node carries
  have known {t' : Thread} {other : ι} (still : Function.update carried t none t' = some other) :
      t' ≠ t ∧ carried t' = some other := by
    by_cases mine : t' = t
    · subst mine
      rw [Function.update_self] at still
      cases still
    · exact ⟨mine, by rwa [Function.update_of_ne mine] at still⟩
  refine ⟨List.nodup_cons.mpr ⟨fresh, placed.nodup⟩, ?_, ?_, ?_⟩
  · intro t' other still member
    obtain ⟨elsewhere, carries'⟩ := known still
    rcases List.mem_cons.mp member with rfl | member
    · exact elsewhere (placed.distinct t' t other carries' carries)
    · exact placed.apart t' other carries' member
  · intro t₁ t₂ other still₁ still₂
    exact placed.distinct t₁ t₂ other (known still₁).2 (known still₂).2
  · intro other
    rw [placed.covers, List.cons_append, List.mem_cons]
    constructor
    · rintro (member | ⟨t', carries'⟩)
      · exact .inl (.inr member)
      · by_cases mine : t' = t
        · subst mine
          rw [carries] at carries'
          cases carries'
          exact .inl (.inl rfl)
        · exact .inr ⟨t', by rw [Function.update_of_ne mine]; exact carries'⟩
    · rintro ((rfl | member) | ⟨t', still⟩)
      · exact .inr ⟨t, carries⟩
      · exact .inl member
      · exact .inr ⟨t', (known still).2⟩

end Ringio.LinkedStack
