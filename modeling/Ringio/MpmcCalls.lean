import Ringio.MpmcSystem

/-! The record of calls agrees with the threads, and it accounts for every
ticket: each claimed ticket has one owner on its side. None of this depends on
what the slots hold. -/
namespace Ringio.MpmcSystem
open BoundedFifo

variable {Thread T : Type} [DecidableEq Thread] {C : Capacity} {s s' : System Thread T C}

/-- The tickets below each cursor, and no others, have exactly one owner. -/
structure Owned (s : System Thread T C) : Prop where
  push : ∀ ticket, ticket < s.enqueued ↔ ∃ id, s.ClaimedPush id ticket
  pushUnique : ∀ id id' ticket, s.ClaimedPush id ticket → s.ClaimedPush id' ticket → id = id'
  pop : ∀ ticket, ticket < s.dequeued ↔ ∃ id, s.ClaimedPop id ticket
  popUnique : ∀ id id' ticket, s.ClaimedPop id ticket → s.ClaimedPop id' ticket → id = id'

/-- What the record says about every call: calls in progress are the threads',
with a ticket exactly between claim and return, and a call that has returned
succeeded exactly if it has a ticket. -/
structure Accounted (s : System Thread T C) : Prop where
  fresh : ∀ id, s.issued ≤ id → s.calls id = none
  running : ∀ t r, s.threads t = some r →
    s.calls r.call = some ⟨r.frame.request, if r.frame.claimed then some r.seen else none, none⟩
  distinct : ∀ t t' r r', s.threads t = some r → s.threads t' = some r' →
    r.call = r'.call → t = t'
  pending : ∀ id request ticket, s.calls id = some ⟨request, ticket, none⟩ →
    ∃ t r, s.threads t = some r ∧ r.call = id
  answered : ∀ id request ticket reply, s.calls id = some ⟨request, ticket, some reply⟩ →
    (∃ value, request = .push value ∧ reply = .pushed ticket.isSome) ∨
      ∃ out, request = .pop ∧ reply = .popped out ∧ out.isSome = ticket.isSome
  owned : Owned s

omit [DecidableEq Thread] in
/-- Steps that change neither a cursor nor a ticket leave the owners alone. -/
theorem Owned.of_same (owned : Owned s) (enqueued : s'.enqueued = s.enqueued)
    (dequeued : s'.dequeued = s.dequeued)
    (same : ∀ id request ticket, s'.Ticketed id request ticket ↔ s.Ticketed id request ticket) :
    Owned s' := by
  refine ⟨?_, ?_, ?_, ?_⟩
  · intro ticket
    simpa only [System.ClaimedPush, same, enqueued] using owned.push ticket
  · intro id id' ticket
    simpa only [System.ClaimedPush, same] using owned.pushUnique id id' ticket
  · intro ticket
    simpa only [System.ClaimedPop, same, dequeued] using owned.pop ticket
  · intro id id' ticket
    simpa only [System.ClaimedPop, same] using owned.popUnique id id' ticket

/-! ## Who owns which ticket after a step -/

omit [DecidableEq Thread] in
theorem Accounted.call_lt (accounted : Accounted s) {t : Thread} {r : Running T}
    (inside : s.threads t = some r) : r.call < s.issued := by
  by_contra late
  have none := accounted.fresh r.call (Nat.not_lt.mp late)
  rw [accounted.running t r inside] at none
  cases none

theorem ticketed_begin (accounted : Accounted s) (t : Thread) (request probe : Request T)
    (id ticket : ℕ) :
    (s.begin t request).Ticketed id probe ticket ↔ s.Ticketed id probe ticket := by
  simp only [System.Ticketed, System.begin]
  by_cases new : id = s.issued
  · subst new
    simp [accounted.fresh s.issued le_rfl]
  · simp [Function.update_of_ne new]

/-- Returning changes nobody's ticket. -/
theorem ticketed_finish (t : Thread) (call : ℕ) (reply : Reply T) (id : ℕ) (probe : Request T)
    (ticket : ℕ) :
    (s.finish t call reply).Ticketed id probe ticket ↔ s.Ticketed id probe ticket := by
  simp only [System.Ticketed, System.finish]
  by_cases own : id = call
  · subst own
    cases found : s.calls id with
    | none => simp
    | some c => cases c; simp
  · simp [Function.update_of_ne own]

omit [DecidableEq Thread] in
/-- Claiming adds exactly the claimed ticket. -/
theorem ticketed_own {call claimed : ℕ} {request : Request T} {reply : Option (Reply T)}
    (unclaimed : s.calls call = some ⟨request, none, reply⟩) (id : ℕ) (probe : Request T)
    (ticket : ℕ) : (s.own call claimed).Ticketed id probe ticket ↔
      s.Ticketed id probe ticket ∨ id = call ∧ probe = request ∧ ticket = claimed := by
  simp only [System.Ticketed, System.own]
  by_cases own : id = call
  · subst own
    simp [unclaimed, eq_comm]
  · simp [own]

/-- A ticket once owned stays owned: by the same call, for the same request. -/
theorem ticketed_step (accounted : Accounted s) (step : Booked s s') {id ticket : ℕ}
    {request : Request T} (owned : s.Ticketed id request ticket) :
    s'.Ticketed id request ticket := by
  cases step with
  | begin idle => exact (ticketed_begin accounted ..).mpr owned
  | shift inside => exact owned
  | claimPush inside frame unclaimed =>
    have entry := accounted.running _ _ inside
    rw [unclaimed] at entry
    exact (ticketed_own entry ..).mpr (.inl owned)
  | claimPop inside frame unclaimed =>
    have entry := accounted.running _ _ inside
    rw [unclaimed] at entry
    exact (ticketed_own entry ..).mpr (.inl owned)
  | refuse inside | publish inside | release inside => exact (ticketed_finish ..).mpr owned

/-- A call that has returned is never written to again. -/
theorem closed_step (accounted : Accounted s) (step : Booked s s') {id : ℕ} {request : Request T}
    {ticket : Option ℕ} {reply : Reply T}
    (closed : s.calls id = some ⟨request, ticket, some reply⟩) :
    s'.calls id = some ⟨request, ticket, some reply⟩ := by
  have other {t : Thread} {r : Running T} (inside : s.threads t = some r) : id ≠ r.call := by
    intro same
    rw [same, accounted.running t r inside] at closed
    cases closed
  cases step with
  | begin idle =>
    have old : id ≠ s.issued := by
      rintro rfl
      rw [accounted.fresh _ le_rfl] at closed
      cases closed
    simp only [System.begin]
    rw [Function.update_of_ne old]
    exact closed
  | shift inside => exact closed
  | claimPush inside | claimPop inside =>
    exact (Function.update_of_ne (other inside) _ _).trans closed
  | refuse inside | publish inside | release inside =>
    exact (Function.update_of_ne (other inside) _ _).trans closed

theorem pushed_step (accounted : Accounted s) (step : Booked s s') {ticket : ℕ} {value : T}
    (pushed : s.Pushed ticket value) : s'.Pushed ticket value :=
  pushed.imp fun _ owned => ticketed_step accounted step owned

theorem published_step (accounted : Accounted s) (step : Booked s s') {ticket : ℕ} {value : T}
    (published : s.Published ticket value) : s'.Published ticket value :=
  published.imp fun _ closed => closed_step accounted step closed

/-! ## The record stays in order -/

private theorem begin_accounted {t : Thread} {request : Request T} (accounted : Accounted s)
    (idle : s.threads t = none) : Accounted (s.begin t request) := by
  have entryFree : (System.entry request).claimed = false := by cases request <;> rfl
  have entryRequest : (System.entry request).request = request := by cases request <;> rfl
  refine ⟨?_, ?_, ?_, ?_, ?_, ?_⟩
  · intro id late
    have later : s.issued < id := late
    simp only [System.begin]
    rw [Function.update_of_ne (by omega)]
    exact accounted.fresh id (by omega)
  · intro t' r' inside
    simp only [System.begin] at inside ⊢
    by_cases own : t' = t
    · subst own
      rw [Function.update_self] at inside
      cases inside
      simp [entryFree, entryRequest]
    · rw [Function.update_of_ne own] at inside
      have older := accounted.call_lt inside
      rw [Function.update_of_ne (by omega)]
      exact accounted.running t' r' inside
  · intro t₁ t₂ r₁ r₂ inside₁ inside₂ same
    simp only [System.begin] at inside₁ inside₂
    by_cases own₁ : t₁ = t <;> by_cases own₂ : t₂ = t
    · rw [own₁, own₂]
    · subst own₁
      rw [Function.update_self] at inside₁
      rw [Function.update_of_ne own₂] at inside₂
      cases inside₁
      have older := accounted.call_lt inside₂
      simp only at same
      omega
    · subst own₂
      rw [Function.update_self] at inside₂
      rw [Function.update_of_ne own₁] at inside₁
      cases inside₂
      have older := accounted.call_lt inside₁
      simp only at same
      omega
    · rw [Function.update_of_ne own₁] at inside₁
      rw [Function.update_of_ne own₂] at inside₂
      exact accounted.distinct _ _ _ _ inside₁ inside₂ same
  · intro id probe ticket unanswered
    simp only [System.begin] at unanswered ⊢
    by_cases new : id = s.issued
    · exact ⟨t, _, Function.update_self .., new.symm⟩
    · rw [Function.update_of_ne new] at unanswered
      obtain ⟨t', r', inside, owner⟩ := accounted.pending id probe ticket unanswered
      have other : t' ≠ t := fun same => by
        rw [same, idle] at inside
        cases inside
      exact ⟨t', r', by rw [Function.update_of_ne other]; exact inside, owner⟩
  · intro id probe ticket reply closed
    simp only [System.begin] at closed
    by_cases new : id = s.issued
    · subst new
      rw [Function.update_self] at closed
      cases closed
    · rw [Function.update_of_ne new] at closed
      exact accounted.answered id probe ticket reply closed
  · exact accounted.owned.of_same rfl rfl fun id probe =>
      ticketed_begin accounted t request probe id

private theorem shift_distinct {t : Thread} {r r' : Running T} (accounted : Accounted s)
    (inside : s.threads t = some r) (call : r'.call = r.call) (t₁ t₂ : Thread) (r₁ r₂ : Running T)
    (inside₁ : Function.update s.threads t (some r') t₁ = some r₁)
    (inside₂ : Function.update s.threads t (some r') t₂ = some r₂) (same : r₁.call = r₂.call) :
    t₁ = t₂ := by
  have known {t' : Thread} {r'' : Running T}
      (still : Function.update s.threads t (some r') t' = some r'') :
      ∃ old, s.threads t' = some old ∧ old.call = r''.call := by
    by_cases own : t' = t
    · subst own
      rw [Function.update_self] at still
      cases still
      exact ⟨r, inside, call.symm⟩
    · rw [Function.update_of_ne own] at still
      exact ⟨r'', still, rfl⟩
  obtain ⟨old₁, was₁, call₁⟩ := known inside₁
  obtain ⟨old₂, was₂, call₂⟩ := known inside₂
  exact accounted.distinct _ _ _ _ was₁ was₂ (call₁.trans (same.trans call₂.symm))

/-- A thread that stays in its call keeps its place in the record. -/
private theorem shift_accounted {t : Thread} {r r' : Running T} {ring : MpmcRing T C}
    (accounted : Accounted s) (inside : s.threads t = some r) (call : r'.call = r.call)
    (request : r'.frame.request = r.frame.request) (claimed : r'.frame.claimed = r.frame.claimed)
    (seen : r.frame.claimed = true → r'.seen = r.seen) :
    Accounted ({ s with ring }.shift t r') := by
  have old := accounted.running t r inside
  refine ⟨accounted.fresh, ?_, ?_, ?_, accounted.answered,
    accounted.owned.of_same rfl rfl fun _ _ _ => Iff.rfl⟩
  · intro t' r'' inside'
    simp only [System.shift] at inside' ⊢
    by_cases own : t' = t
    · subst own
      rw [Function.update_self] at inside'
      cases inside'
      rw [call, old, request, claimed]
      by_cases owns : r.frame.claimed = true
      · simp [owns, seen owns]
      · simp [owns]
    · rw [Function.update_of_ne own] at inside'
      exact accounted.running t' r'' inside'
  · exact shift_distinct (s := s) accounted inside call
  · intro id probe ticket unanswered
    obtain ⟨t', r'', inside', owner⟩ := accounted.pending id probe ticket unanswered
    by_cases own : t' = t
    · subst own
      rw [inside] at inside'
      cases inside'
      exact ⟨t', r', Function.update_self .., call.trans owner⟩
    · exact ⟨t', r'', by simp only [System.shift]; rw [Function.update_of_ne own]; exact inside',
        owner⟩

/-- A thread that claims a ticket is recorded as its owner. -/
private theorem claim_accounted {t : Thread} {r r' : Running T} {ring : MpmcRing T C}
    {enqueued dequeued : ℕ} (accounted : Accounted s) (inside : s.threads t = some r)
    (unclaimed : r.frame.claimed = false) (call : r'.call = r.call)
    (request : r'.frame.request = r.frame.request) (claimed : r'.frame.claimed = true)
    (owned : Owned (({ s with ring, enqueued, dequeued }.own r.call r'.seen).shift t r')) :
    Accounted (({ s with ring, enqueued, dequeued }.own r.call r'.seen).shift t r') := by
  have old := accounted.running t r inside
  rw [unclaimed] at old
  refine ⟨?_, ?_, ?_, ?_, ?_, owned⟩
  · intro id late
    have older := accounted.call_lt inside
    have later : s.issued ≤ id := late
    simp only [System.shift, System.own]
    rw [Function.update_of_ne (by omega)]
    exact accounted.fresh id late
  · intro t' r'' inside'
    simp only [System.shift, System.own] at inside' ⊢
    by_cases own : t' = t
    · subst own
      rw [Function.update_self] at inside'
      cases inside'
      rw [call, Function.update_self, old, request, claimed]
      rfl
    · rw [Function.update_of_ne own] at inside'
      have other : r''.call ≠ r.call := fun same =>
        own (accounted.distinct _ _ _ _ inside' inside same)
      rw [Function.update_of_ne other]
      exact accounted.running t' r'' inside'
  · exact shift_distinct (s := s) accounted inside call
  · intro id probe ticket unanswered
    simp only [System.shift, System.own] at unanswered ⊢
    by_cases own : id = r.call
    · exact ⟨t, r', Function.update_self .., call.trans own.symm⟩
    · rw [Function.update_of_ne own] at unanswered
      obtain ⟨t', r'', inside', owner⟩ := accounted.pending id probe ticket unanswered
      have other : t' ≠ t := fun same => by
        rw [same, inside] at inside'
        cases inside'
        exact own owner.symm
      exact ⟨t', r'', by rw [Function.update_of_ne other]; exact inside', owner⟩
  · intro id probe ticket answer closed
    simp only [System.shift, System.own] at closed
    by_cases own : id = r.call
    · subst own
      rw [Function.update_self, old] at closed
      cases closed
    · rw [Function.update_of_ne own] at closed
      exact accounted.answered id probe ticket answer closed

/-- A thread whose call returns leaves the record with its reply. -/
private theorem finish_accounted {t : Thread} {r : Running T} {ring : MpmcRing T C}
    {turn : Fin C.size → ℕ} {reply : Reply T} (accounted : Accounted s)
    (inside : s.threads t = some r)
    (fits : (∃ value, r.frame.request = .push value ∧ reply = .pushed r.frame.claimed) ∨
      ∃ out, r.frame.request = .pop ∧ reply = .popped out ∧ out.isSome = r.frame.claimed) :
    Accounted ({ s with ring, turn }.finish t r.call reply) := by
  have old := accounted.running t r inside
  refine ⟨?_, ?_, ?_, ?_, ?_, ?_⟩
  · intro id late
    have older := accounted.call_lt inside
    have later : s.issued ≤ id := late
    simp only [System.finish]
    rw [Function.update_of_ne (by omega)]
    exact accounted.fresh id late
  · intro t' r' inside'
    simp only [System.finish] at inside' ⊢
    by_cases own : t' = t
    · subst own
      rw [Function.update_self] at inside'
      cases inside'
    · rw [Function.update_of_ne own] at inside'
      have other : r'.call ≠ r.call := fun same =>
        own (accounted.distinct _ _ _ _ inside' inside same)
      rw [Function.update_of_ne other]
      exact accounted.running t' r' inside'
  · intro t₁ t₂ r₁ r₂ inside₁ inside₂ same
    simp only [System.finish] at inside₁ inside₂
    have other {t' : Thread} {r' : Running T}
        (still : Function.update s.threads t none t' = some r') : s.threads t' = some r' := by
      by_cases own : t' = t
      · subst own
        rw [Function.update_self] at still
        cases still
      · rwa [Function.update_of_ne own] at still
    exact accounted.distinct _ _ _ _ (other inside₁) (other inside₂) same
  · intro id probe ticket unanswered
    simp only [System.finish] at unanswered ⊢
    by_cases own : id = r.call
    · subst own
      rw [Function.update_self, old] at unanswered
      cases unanswered
    · rw [Function.update_of_ne own] at unanswered
      obtain ⟨t', r', inside', owner⟩ := accounted.pending id probe ticket unanswered
      have other : t' ≠ t := fun same => by
        rw [same, inside] at inside'
        cases inside'
        exact own owner.symm
      exact ⟨t', r', by rw [Function.update_of_ne other]; exact inside', owner⟩
  · intro id probe ticket answer closed
    simp only [System.finish] at closed
    by_cases own : id = r.call
    · subst own
      rw [Function.update_self, old] at closed
      cases closed
      rcases fits with ⟨value, request, rfl⟩ | ⟨out, request, rfl, some⟩
      · exact .inl ⟨value, request, by cases r.frame.claimed <;> rfl⟩
      · exact .inr ⟨out, request, rfl, by rw [some]; cases r.frame.claimed <;> rfl⟩
    · rw [Function.update_of_ne own] at closed
      exact accounted.answered id probe ticket answer closed
  · exact accounted.owned.of_same rfl rfl (ticketed_finish t r.call reply)

omit [DecidableEq Thread] in
/-- The next ticket of a side, given to a call without one, keeps one owner for
each ticket of that side. -/
private theorem owned_claim {P P' : ℕ → ℕ → Prop} {bound : ℕ} (call : ℕ)
    (below : ∀ ticket, ticket < bound ↔ ∃ id, P id ticket)
    (unique : ∀ id id' ticket, P id ticket → P id' ticket → id = id')
    (added : ∀ id ticket, P' id ticket ↔ P id ticket ∨ id = call ∧ ticket = bound) :
    (∀ ticket, ticket < bound + 1 ↔ ∃ id, P' id ticket) ∧
      ∀ id id' ticket, P' id ticket → P' id' ticket → id = id' := by
  have inside {id ticket : ℕ} (owned : P id ticket) : ticket < bound :=
    (below ticket).mpr ⟨id, owned⟩
  constructor
  · intro ticket
    simp only [added, exists_or, exists_eq_left, ← below]
    omega
  · intro id id' ticket owned owned'
    rcases (added id ticket).mp owned with old | ⟨rfl, rfl⟩ <;>
      rcases (added id' _).mp owned' with old' | ⟨rfl, last⟩
    · exact unique id id' ticket old old'
    · have := inside old
      omega
    · have := inside old'
      omega
    · rfl

private theorem claimPush_owned {t : Thread} {r r' : Running T} {ring : MpmcRing T C} {value : T}
    (accounted : Accounted s) (inside : s.threads t = some r)
    (request : r.frame.request = .push value) (unclaimed : r.frame.claimed = false) :
    Owned (({ s with ring, enqueued := s.enqueued + 1 }.own r.call s.enqueued).shift t r') := by
  have old := accounted.running t r inside
  rw [unclaimed, request] at old
  have added (id : ℕ) (probe : Request T) (ticket : ℕ) :
      (({ s with ring, enqueued := s.enqueued + 1 }.own r.call s.enqueued).shift t r').Ticketed id
        probe ticket ↔ s.Ticketed id probe ticket ∨
          id = r.call ∧ probe = .push value ∧ ticket = s.enqueued :=
    ticketed_own (s := { s with ring, enqueued := s.enqueued + 1 }) old id probe ticket
  have others (id ticket : ℕ) := (added id .pop ticket).trans
    (by simp [System.ClaimedPop] : _ ↔ s.ClaimedPop id ticket)
  obtain ⟨push, pushUnique⟩ := owned_claim r.call accounted.owned.push
    accounted.owned.pushUnique fun id ticket =>
      (exists_congr fun probe => added id (.push probe) ticket).trans (by
        simp [System.ClaimedPush, exists_or])
  refine ⟨push, pushUnique, fun ticket => ?_, fun id id' ticket claim claim' => ?_⟩
  · exact (accounted.owned.pop ticket).trans (exists_congr fun id => (others id ticket).symm)
  · exact accounted.owned.popUnique id id' ticket ((others id ticket).mp claim)
      ((others id' ticket).mp claim')

private theorem claimPop_owned {t : Thread} {r r' : Running T} {ring : MpmcRing T C}
    (accounted : Accounted s) (inside : s.threads t = some r) (request : r.frame.request = .pop)
    (unclaimed : r.frame.claimed = false) :
    Owned (({ s with ring, dequeued := s.dequeued + 1 }.own r.call s.dequeued).shift t r') := by
  have old := accounted.running t r inside
  rw [unclaimed, request] at old
  have added (id : ℕ) (probe : Request T) (ticket : ℕ) :
      (({ s with ring, dequeued := s.dequeued + 1 }.own r.call s.dequeued).shift t r').Ticketed id
        probe ticket ↔ s.Ticketed id probe ticket ∨
          id = r.call ∧ probe = .pop ∧ ticket = s.dequeued :=
    ticketed_own (s := { s with ring, dequeued := s.dequeued + 1 }) old id probe ticket
  have others (id ticket : ℕ) := (exists_congr fun value => added id (.push value) ticket).trans
    (by simp [System.ClaimedPush] : _ ↔ s.ClaimedPush id ticket)
  obtain ⟨pop, popUnique⟩ := owned_claim r.call accounted.owned.pop
    accounted.owned.popUnique fun id ticket =>
      (added id .pop ticket).trans (by simp [System.ClaimedPop])
  refine ⟨fun ticket => ?_, fun id id' ticket claim claim' => ?_, pop, popUnique⟩
  · exact (accounted.owned.push ticket).trans (exists_congr fun id => (others id ticket).symm)
  · exact accounted.owned.pushUnique id id' ticket ((others id ticket).mp claim)
      ((others id' ticket).mp claim')

/-- Every step keeps the record in order. -/
theorem step_accounted (accounted : Accounted s) (step : Booked s s') : Accounted s' := by
  cases step with
  | begin idle => exact begin_accounted accounted idle
  | shift inside call request claimed seen =>
    exact shift_accounted accounted inside call request claimed seen
  | claimPush inside frame unclaimed =>
    refine claim_accounted accounted inside unclaimed rfl ?_ rfl ?_
    · rw [frame]
      rfl
    · exact claimPush_owned accounted inside (by rw [frame]; rfl) unclaimed
  | claimPop inside frame unclaimed =>
    refine claim_accounted accounted inside unclaimed rfl ?_ rfl ?_
    · rw [frame]
      rfl
    · exact claimPop_owned accounted inside (by rw [frame]; rfl) unclaimed
  | @refuse t r ring reply inside unclaimed reason =>
    refine finish_accounted accounted inside ?_
    rw [unclaimed]
    generalize r.frame = frame at reason
    cases reason with
    | push behind => exact .inl ⟨_, rfl, rfl⟩
    | pop behind => exact .inr ⟨none, rfl, rfl, rfl⟩
  | publish inside frame =>
    refine finish_accounted accounted inside (.inl ⟨_, by rw [frame]; rfl, ?_⟩)
    rw [frame]
    rfl
  | release inside frame =>
    refine finish_accounted accounted inside (.inr ⟨_, by rw [frame]; rfl, rfl, ?_⟩)
    rw [frame]
    rfl

theorem start_accounted [Inhabited T] : Accounted (machine Thread T C).start :=
  ⟨fun _ _ => rfl, nofun, nofun, nofun, nofun,
    ⟨fun _ => ⟨nofun, nofun⟩, nofun, fun _ => ⟨nofun, nofun⟩, nofun⟩⟩

end Ringio.MpmcSystem
