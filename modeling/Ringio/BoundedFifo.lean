import Mathlib.Data.List.Basic
import Mathlib.Tactic.Basic

/-! The bounded first-in first-out queue the rings are meant to be: what each
operation answers and what it leaves behind, over plain lists. Nothing here
knows about cursors, slots or threads. -/
namespace Ringio.BoundedFifo

/-- The two operations of a queue. -/
inductive Request (T : Type) where
  | push (value : T)
  | pop
  deriving DecidableEq

/-- Their answers: acceptance, and the oldest element when there is one. -/
inductive Reply (T : Type) where
  | pushed (accepted : Bool)
  | popped (out : Option T)
  deriving DecidableEq

variable {T : Type} {capacity : ℕ}

/-- One operation on a queue of the given size. -/
def answer (capacity : ℕ) (held : List T) : Request T → Reply T × List T
  | .push value =>
    if held.length < capacity then (.pushed true, held ++ [value]) else (.pushed false, held)
  | .pop =>
    match held with
    | [] => (.popped none, [])
    | oldest :: rest => (.popped (some oldest), rest)

/-- A whole sequence of operations, with the answers in order. -/
def serve (capacity : ℕ) (held : List T) : List (Request T) → List (Reply T) × List T
  | [] => ([], held)
  | request :: rest =>
    let first := answer capacity held request
    let later := serve capacity first.2 rest
    (first.1 :: later.1, later.2)

theorem serve_concat (held : List T) (requests : List (Request T)) (request : Request T) :
    serve capacity held (requests ++ [request]) =
      let before := serve capacity held requests
      let last := answer capacity before.2 request
      (before.1 ++ [last.1], last.2) := by
  induction requests generalizing held with
  | nil => rfl
  | cons first rest ih => simp only [List.cons_append, serve, ih]

/-- A log of answered operations is a history of the queue when serving its
requests from empty gives its replies and leaves these elements. -/
def Legal (capacity : ℕ) (log : List (Request T × Reply T)) (held : List T) : Prop :=
  serve capacity [] (log.map Prod.fst) = (log.map Prod.snd, held)

theorem legal_nil : Legal capacity ([] : List (Request T × Reply T)) [] := rfl

/-- A history is extended by what the queue answers next. -/
theorem Legal.concat {log : List (Request T × Reply T)} {held left : List T} {request : Request T}
    {reply : Reply T} (before : Legal capacity log held)
    (answered : answer capacity held request = (reply, left)) :
    Legal capacity (log ++ [(request, reply)]) left := by
  unfold Legal at before ⊢
  simp [serve_concat, before, answered]

/-- The values of the pushes that were accepted, in the order of the log. -/
def accepted (log : List (Request T × Reply T)) : List T :=
  log.filterMap fun
    | (.push value, .pushed true) => some value
    | _ => none

/-- The values handed out by pops, in the order of the log. -/
def delivered (log : List (Request T × Reply T)) : List T :=
  log.filterMap fun
    | (.pop, .popped out) => out
    | _ => none

theorem accepted_cons (entry : Request T × Reply T) (log : List (Request T × Reply T)) :
    accepted (entry :: log) = accepted [entry] ++ accepted log :=
  List.filterMap_append (l := [entry])

theorem delivered_cons (entry : Request T × Reply T) (log : List (Request T × Reply T)) :
    delivered (entry :: log) = delivered [entry] ++ delivered log :=
  List.filterMap_append (l := [entry])

/-- One answer accounts for its element: accepted ones are held or handed out. -/
theorem answer_accounts (capacity : ℕ) (held : List T) (request : Request T) :
    let answered := answer capacity held request
    held ++ accepted [(request, answered.1)] =
      delivered [(request, answered.1)] ++ answered.2 := by
  cases request with
  | push value =>
    simp only [answer]
    split <;> simp [accepted, delivered]
  | pop => cases held <;> simp [answer, accepted, delivered]

private theorem serve_accounts (capacity : ℕ) (held : List T) (requests : List (Request T)) :
    let served := serve capacity held requests
    held ++ accepted (requests.zip served.1) = delivered (requests.zip served.1) ++ served.2 := by
  induction requests generalizing held with
  | nil => simp [serve, accepted, delivered]
  | cons request rest ih =>
    have first := answer_accounts capacity held request
    have later := ih (answer capacity held request).2
    simp only [serve, List.zip_cons_cons]
    rw [accepted_cons, delivered_cons, ← List.append_assoc, first, List.append_assoc, later,
      List.append_assoc]

/-- In a history, what was accepted is what was handed out followed by what is
still held, in that order. -/
theorem Legal.accounts {log : List (Request T × Reply T)} {held : List T}
    (legal : Legal capacity log held) : accepted log = delivered log ++ held := by
  have balance := serve_accounts capacity [] (log.map Prod.fst)
  rw [Legal] at legal
  simpa [legal, List.zip_map'] using balance

private theorem answer_fits (held : List T) (request : Request T) (fits : held.length ≤ capacity) :
    (answer capacity held request).2.length ≤ capacity := by
  cases request with
  | push value =>
    simp only [answer]
    split
    · simpa [Nat.succ_le_iff]
    · exact fits
  | pop =>
    cases held with
    | nil => simp [answer]
    | cons oldest rest => exact Nat.le_of_succ_le fits

private theorem serve_fits (capacity : ℕ) (held : List T) (requests : List (Request T))
    (fits : held.length ≤ capacity) : (serve capacity held requests).2.length ≤ capacity := by
  induction requests generalizing held with
  | nil => exact fits
  | cons request rest ih => exact ih _ (answer_fits held request fits)

/-- No history overfills the queue. -/
theorem Legal.fits {log : List (Request T × Reply T)} {held : List T}
    (legal : Legal capacity log held) : held.length ≤ capacity := by
  have bound := serve_fits capacity ([] : List T) (log.map Prod.fst) (Nat.zero_le _)
  rwa [show serve capacity [] (log.map Prod.fst) = _ from legal] at bound

/-- A sequential implementation of the queue. Its states carry whatever they
need to stay valid, and both operations answer as the queue does. -/
structure Queue (T : Type) where
  State : Type
  new : State
  capacity : ℕ
  held : State → List T
  tryPush : State → T → Bool × State
  tryPop : State → Option T × State
  new_held : held new = []
  fits : ∀ state, (held state).length ≤ capacity
  push_refines : ∀ state value, answer capacity (held state) (.push value) =
    (.pushed (tryPush state value).1, held (tryPush state value).2)
  pop_refines : ∀ state, answer capacity (held state) .pop =
    (.popped (tryPop state).1, held (tryPop state).2)

namespace Queue
variable {Q : Queue T} {state : Q.State} {oldest : T} {rest : List T}

theorem push_room (value : T) (room : (Q.held state).length < Q.capacity) :
    (Q.tryPush state value).1 = true ∧
      Q.held (Q.tryPush state value).2 = Q.held state ++ [value] := by
  have refines := Q.push_refines state value
  simp only [answer, room, ↓reduceIte, Prod.mk.injEq, Reply.pushed.injEq] at refines
  exact ⟨refines.1.symm, refines.2.symm⟩

theorem push_full (value : T) (full : Q.capacity ≤ (Q.held state).length) :
    (Q.tryPush state value).1 = false ∧ Q.held (Q.tryPush state value).2 = Q.held state := by
  have refines := Q.push_refines state value
  simp only [answer, Nat.not_lt.mpr full, ↓reduceIte, Prod.mk.injEq, Reply.pushed.injEq] at refines
  exact ⟨refines.1.symm, refines.2.symm⟩

theorem pop_nil (empty : Q.held state = []) :
    (Q.tryPop state).1 = none ∧ Q.held (Q.tryPop state).2 = [] := by
  have refines := Q.pop_refines state
  simp only [answer, empty, Prod.mk.injEq, Reply.popped.injEq] at refines
  exact ⟨refines.1.symm, refines.2.symm⟩

theorem pop_cons (nonempty : Q.held state = oldest :: rest) :
    (Q.tryPop state).1 = some oldest ∧ Q.held (Q.tryPop state).2 = rest := by
  have refines := Q.pop_refines state
  simp only [answer, nonempty, Prod.mk.injEq, Reply.popped.injEq] at refines
  exact ⟨refines.1.symm, refines.2.symm⟩

end Queue
end Ringio.BoundedFifo
