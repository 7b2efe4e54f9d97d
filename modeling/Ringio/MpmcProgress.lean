import Ringio.MpmcDelivery
import Ringio.MpmcWraparound

/-! What a retry of `try_push` or `try_pop` costs. A call goes around its loop
again only when the cursor of its side has moved past the value it was using,
and a sequence never runs ahead of the current cursor; so a call that finds the
cursor at rest is through after two iterations at most, wherever the other
threads are. -/
namespace Ringio.MpmcSystem
open BoundedFifo

variable {Thread T : Type} [DecidableEq Thread] {C : Capacity} {s s' : System Thread T C}
  {t : Thread} {r r' : Running T} {pos : UInt64}

/-- The two member functions, each with a cursor of its own. -/
inductive Side where
  | push
  | pop

def Frame.side : Frame T → Side
  | .push _ _ => .push
  | .pop _ => .pop

/-- Where a call stands in its loop: about to load the cursor, at the top of an
iteration, at the compare-exchange, or so many accesses from its return. -/
inductive Phase where
  | load
  | top (pos : UInt64)
  | exchange (pos : UInt64)
  | owner (left : ℕ)
  deriving DecidableEq

def Frame.phase : Frame T → Phase
  | .push _ .loadPos | .pop .loadPos => .load
  | .push _ (.loadSequence pos) | .pop (.loadSequence pos) => .top pos
  | .push _ (.exchange pos) | .pop (.exchange pos) => .exchange pos
  | .push _ (.writeValue _) | .pop (.readValue _) => .owner 2
  | .push _ (.storeSequence _) | .pop (.storeSequence _ _) => .owner 1

namespace System

/-- `enqueue_pos_` or `dequeue_pos_`. -/
def cursor (s : System Thread T C) : Side → UInt64
  | .push => s.ring.enqueuePos
  | .pop => s.ring.dequeuePos

/-- The difference a call of this side computes at the slot of `pos`. -/
def diff (s : System Thread T C) : Side → UInt64 → Int64
  | .push, pos => s.ring.pushDiff pos
  | .pop, pos => s.ring.popDiff pos

end System

/-! ## The difference at the cursor -/

omit [DecidableEq Thread] in
/-- At the current cursor the difference is never positive: no sequence has run
ahead of it. -/
theorem Sound.diff_cursor (sound : Sound s) (several : 2 ≤ C.size) (side : Side) :
    ¬ 0 < s.diff side (s.cursor side) := by
  obtain ⟨-, coherent, -, enqueued, dequeued⟩ := sound
  have positive {a b : ℕ} (small : b ≤ 2 ^ 63) (bound : a ≤ b) :
      ¬ 0 < Cursor.signedDiff (.ofNat a) (.ofNat b) := by
    rw [Int64.lt_iff_toInt_lt, Cursor.signedDiff_toInt (by omega) (by omega), Int64.toInt_zero]
    omega
  cases side with
  | push =>
    simp only [System.diff, System.cursor, MpmcRing.pushDiff, MpmcRing.slot,
      coherent.cursors.enqueue, coherent.cursors.sequence]
    refine positive enqueued.le (Nat.not_lt.mp fun ahead => ?_)
    have free := coherent.free_at_enqueue several ahead.le
    omega
  | pop =>
    simp only [System.diff, System.cursor, MpmcRing.popDiff, MpmcRing.slot,
      coherent.cursors.dequeue, coherent.cursors.sequence, Cursor.ofNat_add_one]
    refine positive dequeued (Nat.not_lt.mp fun ahead => ?_)
    have published := coherent.published_at_dequeue (by omega)
    omega

private theorem ofNat_le {seen ticket : ℕ} (past : seen ≤ ticket) :
    (UInt64.ofNat seen).toNat ≤ ticket := by
  rw [UInt64.toNat_ofNat']
  exact (Nat.mod_le _ _).trans past

omit [DecidableEq Thread] in
/-- A call never uses a value its cursor has not reached. -/
theorem Sound.pos_le (sound : Sound s) (inside : s.threads t = some r)
    (uses : r.frame.phase = .top pos ∨ r.frame.phase = .exchange pos) :
    pos.toNat ≤ (s.cursor r.frame.side).toNat := by
  have frame := sound.coherent.frames t r inside
  obtain ⟨call, frame', seen⟩ := r
  cases frame' with
  | push value point =>
    show _ ≤ s.ring.enqueuePos.toNat
    rw [sound.enqueuePos]
    cases point with
    | loadSequence pos' | exchange pos' =>
      simp only [Frame.phase, Phase.top.injEq, Phase.exchange.injEq, reduceCtorEq, or_false,
        false_or] at uses
      simp only [FrameSound] at frame
      rw [← uses, frame.1]
      exact ofNat_le (by omega)
    | loadPos | writeValue | storeSequence => simp [Frame.phase] at uses
  | pop point =>
    show _ ≤ s.ring.dequeuePos.toNat
    rw [sound.dequeuePos]
    cases point with
    | loadSequence pos' | exchange pos' =>
      simp only [Frame.phase, Phase.top.injEq, Phase.exchange.injEq, reduceCtorEq, or_false,
        false_or] at uses
      simp only [FrameSound] at frame
      rw [← uses, frame.1]
      exact ofNat_le (by omega)
    | loadPos | readValue | storeSequence => simp [Frame.phase] at uses

/-! ## One access -/

/-- The same call later. -/
structure Running.Continues (r' r : Running T) : Prop where
  call : r'.call = r.call
  side : r'.frame.side = r.frame.side

/-- What one access without a spurious failure makes of a call, and when it sends
it around again: only with the cursor past the value in use. -/
inductive Turned (s s' : System Thread T C) (r : Running T) : Option (Running T) → Prop where
  | load {later : Running T} (before : r.frame.phase = .load) (same : later.Continues r)
      (still : s'.cursor r.frame.side = s.cursor r.frame.side)
      (after : later.frame.phase = .top (s.cursor r.frame.side)) : Turned s s' r (some later)
  | ready {used : UInt64} {later : Running T} (before : r.frame.phase = .top used)
      (same : later.Continues r) (still : s'.cursor r.frame.side = s.cursor r.frame.side)
      (after : later.frame.phase = .exchange used) : Turned s s' r (some later)
  | refused {used : UInt64} (before : r.frame.phase = .top used) : Turned s s' r none
  | reload {used : UInt64} {later : Running T} (before : r.frame.phase = .top used)
      (passed : used.toNat < (s.cursor r.frame.side).toNat) (same : later.Continues r)
      (still : s'.cursor r.frame.side = s.cursor r.frame.side)
      (after : later.frame.phase = .load) : Turned s s' r (some later)
  | claim {used : UInt64} {later : Running T} (before : r.frame.phase = .exchange used)
      (same : later.Continues r) (after : later.frame.phase = .owner 2) :
      Turned s s' r (some later)
  | lost {used : UInt64} {later : Running T} (before : r.frame.phase = .exchange used)
      (passed : used.toNat < (s.cursor r.frame.side).toNat) (same : later.Continues r)
      (still : s'.cursor r.frame.side = s.cursor r.frame.side)
      (after : later.frame.phase = .top (s.cursor r.frame.side)) : Turned s s' r (some later)
  | access {later : Running T} (before : r.frame.phase = .owner 2) (same : later.Continues r)
      (after : later.frame.phase = .owner 1) : Turned s s' r (some later)
  | done (before : r.frame.phase = .owner 1) : Turned s s' r none

private theorem pos_of_not_neg {diff : Int64} (nonzero : ¬ diff = 0) (notNegative : ¬ diff < 0) :
    0 < diff := by
  rw [Int64.lt_iff_toInt_lt, Int64.toInt_zero] at *
  have other : diff.toInt ≠ 0 := fun zero => nonzero (Int64.toInt_inj.mp zero)
  omega

omit [DecidableEq Thread] in
/-- A value that is not the current cursor is an earlier one. -/
theorem Sound.pos_lt (sound : Sound s) (inside : s.threads t = some r) (pos : UInt64)
    (uses : r.frame.phase = .top pos ∨ r.frame.phase = .exchange pos)
    (other : s.cursor r.frame.side ≠ pos) : pos.toNat < (s.cursor r.frame.side).toNat := by
  refine lt_of_le_of_ne (sound.pos_le inside uses) fun same => other ?_
  exact (UInt64.toNat_inj.mp same).symm

omit [DecidableEq Thread] in
private theorem Turned.at_ {after : Option (Running T)} (threads : s'.threads t = after)
    (turned : Turned s s' r after) : Turned s s' r (s'.threads t) :=
  threads ▸ turned

/-- Every access without a spurious failure is one of these. -/
theorem own_step (several : 2 ≤ C.size) (sound : Sound s) (inside : s.threads t = some r)
    (moved : s.next (.run t false) = some s') : Turned s s' r (s'.threads t) := by
  have ahead := sound.diff_cursor several r.frame.side
  have behind := sound.pos_lt inside
  obtain ⟨call, frame, seen⟩ := r
  simp only [System.next, System.run, inside] at moved
  cases frame with
  | push value point =>
    cases moved
    cases point with
    | loadPos => exact .at_ (Function.update_self ..) (.load rfl ⟨rfl, rfl⟩ rfl rfl)
    | loadSequence pos =>
      simp only [MpmcRing.pushStep]
      split
      · exact .at_ (Function.update_self ..) (.ready rfl ⟨rfl, rfl⟩ rfl rfl)
      · split
        · exact .at_ (Function.update_self ..) (.refused rfl)
        · rename_i nonzero notNegative
          refine .at_ (Function.update_self ..) (.reload rfl (behind pos (.inl rfl) ?_)
            ⟨rfl, rfl⟩ rfl rfl)
          intro (same : s.ring.enqueuePos = pos)
          subst same
          exact ahead (pos_of_not_neg nonzero notNegative)
    | exchange pos =>
      simp only [MpmcRing.pushStep]
      split
      · exact .at_ (Function.update_self ..) (.claim rfl ⟨rfl, rfl⟩ rfl)
      · rename_i failed
        exact .at_ (Function.update_self ..) (.lost rfl
          (behind pos (.inr rfl) fun same => failed ⟨same, trivial⟩) ⟨rfl, rfl⟩ rfl rfl)
    | writeValue pos => exact .at_ (Function.update_self ..) (.access rfl ⟨rfl, rfl⟩ rfl)
    | storeSequence pos => exact .at_ (Function.update_self ..) (.done rfl)
  | pop point =>
    cases moved
    cases point with
    | loadPos => exact .at_ (Function.update_self ..) (.load rfl ⟨rfl, rfl⟩ rfl rfl)
    | loadSequence pos =>
      simp only [MpmcRing.popStep]
      split
      · exact .at_ (Function.update_self ..) (.ready rfl ⟨rfl, rfl⟩ rfl rfl)
      · split
        · exact .at_ (Function.update_self ..) (.refused rfl)
        · rename_i nonzero notNegative
          refine .at_ (Function.update_self ..) (.reload rfl (behind pos (.inl rfl) ?_)
            ⟨rfl, rfl⟩ rfl rfl)
          intro (same : s.ring.dequeuePos = pos)
          subst same
          exact ahead (pos_of_not_neg nonzero notNegative)
    | exchange pos =>
      simp only [MpmcRing.popStep]
      split
      · exact .at_ (Function.update_self ..) (.claim rfl ⟨rfl, rfl⟩ rfl)
      · rename_i failed
        exact .at_ (Function.update_self ..) (.lost rfl
          (behind pos (.inr rfl) fun same => failed ⟨same, trivial⟩) ⟨rfl, rfl⟩ rfl rfl)
    | readValue pos => exact .at_ (Function.update_self ..) (.access rfl ⟨rfl, rfl⟩ rfl)
    | storeSequence pos out => exact .at_ (Function.update_self ..) (.done rfl)

/-- Cursors only move on. -/
theorem cursor_mono {command : Command Thread T} (sound : Sound s) (sound' : Sound s')
    (moved : s.next command = some s') (side : Side) :
    (s.cursor side).toNat ≤ (s'.cursor side).toNat := by
  obtain ⟨⟨enqueued, -⟩, dequeued, -⟩ := cursor_step (booked moved)
  cases side with
  | push =>
    show s.ring.enqueuePos.toNat ≤ s'.ring.enqueuePos.toNat
    rwa [sound.enqueuePos, sound'.enqueuePos]
  | pop =>
    show s.ring.dequeuePos.toNat ≤ s'.ring.dequeuePos.toNat
    rwa [sound.dequeuePos, sound'.dequeuePos]

/-- Call numbers are not given out twice. -/
theorem issued_mono {command : Command Thread T} (moved : s.next command = some s') :
    s.issued ≤ s'.issued := by
  cases booked moved with
  | begin => exact Nat.le_succ _
  | shift | claimPush | claimPop | refuse | publish | release => exact le_rfl

/-- Runs with cursors below `2 ^ 63` in which no compare-exchange of this thread
fails spuriously. -/
def steady (t : Thread) (s : System Thread T C) (command : Command Thread T)
    (s' : System Thread T C) : Prop :=
  smallCursors s command s' ∧ ∀ spurious, command = .run t spurious → spurious = false

/-- Those of them in which the thread starts no further call and no other thread
moves the cursor of this side. -/
def undisturbed (t : Thread) (side : Side) (s : System Thread T C) (command : Command Thread T)
    (s' : System Thread T C) : Prop :=
  steady t s command s' ∧ (∀ request, command ≠ .call t request) ∧
    (command.thread ≠ t → s'.cursor side = s.cursor side)

/-! ## Going around again -/

/-- A call that has left the iteration in which it used a value: at each top of
the loop it uses a later one. -/
def Beyond (used cursor : UInt64) : Phase → Prop
  | .load => used.toNat < cursor.toNat
  | .top pos => used.toNat < pos.toNat
  | .exchange pos => used.toNat ≤ pos.toNat
  | .owner _ => True

omit [DecidableEq Thread] in
/-- No access of the call brings it back. -/
theorem Turned.beyond {used : UInt64} {later : Running T} (turned : Turned s s' r (some later))
    (before : Beyond used (s.cursor r.frame.side) r.frame.phase) :
    Beyond used (s'.cursor r.frame.side) later.frame.phase := by
  cases turned with
  | load phase same still after =>
    rw [phase] at before
    rw [after]
    exact before
  | ready phase same still after =>
    rw [phase] at before
    rw [after]
    exact Nat.le_of_lt before
  | reload phase passed same still after =>
    rw [phase] at before
    rw [after, still]
    exact Nat.lt_trans before passed
  | lost phase passed same still after =>
    rw [phase] at before
    rw [after]
    exact Nat.lt_of_le_of_lt before passed
  | claim phase same after | access phase same after =>
    rw [after]
    trivial

omit [DecidableEq Thread] in
theorem Turned.continues {later : Running T} (turned : Turned s s' r (some later)) :
    later.Continues r := by
  cases turned with
  | load _ same | ready _ same | reload _ _ same | claim _ same | lost _ _ same | access _ same =>
    exact same

/-- The thread is done with that iteration of its call, or with the call. -/
structure Left (s : System Thread T C) (t : Thread) (call : ℕ) (side : Side) (used : UInt64) :
    Prop where
  known : call < s.issued
  later : ∀ r, s.threads t = some r → r.call = call →
    r.frame.side = side ∧ Beyond used (s.cursor side) r.frame.phase

/-- The access at the top of the loop ends the use of its value but for the
compare-exchange. -/
theorem left_of_top (several : 2 ≤ C.size) (sound : Sound s) (inside : s.threads t = some r)
    (top : r.frame.phase = .top pos) (moved : s.next (.run t false) = some s') :
    Left s' t r.call r.frame.side pos := by
  have turned := own_step several sound inside moved
  refine ⟨(sound.accounted.call_lt inside).trans_le (issued_mono moved), fun later inside' _ => ?_⟩
  rw [inside'] at turned
  refine ⟨turned.continues.side, ?_⟩
  cases turned with
  | load before | claim before | lost before | access before =>
    rw [top] at before
    cases before
  | ready before same still after =>
    rw [top] at before
    cases before
    rw [after]
    exact le_rfl
  | reload before passed same still after =>
    rw [top] at before
    cases before
    rw [after, still]
    exact passed

/-- Nothing brings the thread back to it. -/
theorem step_left {command : Command Thread T} {call : ℕ} {side : Side} {used : UInt64}
    (several : 2 ≤ C.size) (sound : Sound s) (sound' : Sound s') (left : Left s t call side used)
    (moved : s.next command = some s') (steadily : steady t s command s') :
    Left s' t call side used := by
  refine ⟨left.known.trans_le (issued_mono moved), fun later inside' own => ?_⟩
  by_cases mine : command.thread = t
  · cases command with
    | call t' request =>
      obtain rfl : t' = t := mine
      simp only [System.next] at moved
      split at moved
      · cases moved
        rw [show System.threads _ _ = _ from Function.update_self ..] at inside'
        cases inside'
        exact absurd own left.known.ne'
      · cases moved
    | run t' spurious =>
      obtain rfl : t' = t := mine
      cases steadily.2 spurious rfl
      cases inside : s.threads t' with
      | none => simp [System.next, System.run, inside] at moved
      | some r =>
        have turned := own_step several sound inside moved
        rw [inside'] at turned
        have continues := turned.continues
        obtain ⟨rfl, before⟩ := left.later r inside (continues.call.symm.trans own)
        exact ⟨continues.side, turned.beyond before⟩
  · rw [other_step moved mine] at inside'
    obtain ⟨same, before⟩ := left.later later inside' own
    refine ⟨same, ?_⟩
    cases phase : later.frame.phase with
    | load =>
      rw [phase] at before
      exact Nat.lt_of_lt_of_le before (cursor_mono sound sound' moved side)
    | top | exchange | owner =>
      rw [phase] at before
      exact before

/-! ## A cursor at rest -/

/-- The accesses a call still has to make while its cursor is here and rests. -/
def Phase.accesses (cursor : UInt64) : Phase → ℕ
  | .load => 5
  | .top pos => if pos = cursor then 4 else 6
  | .exchange pos => if pos = cursor then 3 else 5
  | .owner left => left

/-- The iterations it still begins. -/
def Phase.iterations (cursor : UInt64) : Phase → ℕ
  | .load => 1
  | .top pos => if pos = cursor then 1 else 2
  | .exchange pos => if pos = cursor then 0 else 1
  | .owner _ => 0

def System.accesses (s : System Thread T C) (t : Thread) : ℕ :=
  (s.threads t).elim 0 fun r => r.frame.phase.accesses (s.cursor r.frame.side)

def System.iterations (s : System Thread T C) (t : Thread) : ℕ :=
  (s.threads t).elim 0 fun r => r.frame.phase.iterations (s.cursor r.frame.side)

/-- One for each access of a thread. -/
def access (t : Thread) (_ : System Thread T C) : Command Thread T → ℕ
  | .call _ _ => 0
  | .run t' _ => if t' = t then 1 else 0

/-- One for each iteration of its loop that it begins. -/
def iteration (t : Thread) (s : System Thread T C) : Command Thread T → ℕ
  | .call _ _ => 0
  | .run t' _ =>
    if t' = t then
      (s.threads t).elim 0 fun r =>
        match r.frame.phase with
        | .top _ => 1
        | _ => 0
    else 0

omit [DecidableEq Thread] in
/-- Each access of a call is one of those it had to make, and each top of the loop
one of the iterations it had to begin. -/
theorem Turned.pays {after : Option (Running T)} (turned : Turned s s' r after) :
    (after.elim 0 fun later => later.frame.phase.accesses (s'.cursor later.frame.side)) + 1 ≤
        r.frame.phase.accesses (s.cursor r.frame.side) ∧
      (after.elim 0 fun later => later.frame.phase.iterations (s'.cursor later.frame.side)) +
        (match r.frame.phase with
          | .top _ => 1
          | _ => 0) ≤ r.frame.phase.iterations (s.cursor r.frame.side) := by
  have stale {used : UInt64} (passed : used.toNat < (s.cursor r.frame.side).toNat) :
      used ≠ s.cursor r.frame.side := by
    rintro rfl
    exact Nat.lt_irrefl _ passed
  cases turned with
  | load before same still after =>
    simp [before, same.side, still, after, Phase.accesses, Phase.iterations]
  | @ready used later before same still after =>
    by_cases current : used = s.cursor r.frame.side
    · simp [before, same.side, still, after, Phase.accesses, Phase.iterations, current]
    · simp [before, same.side, still, after, Phase.accesses, Phase.iterations, current]
  | @refused used before =>
    by_cases current : used = s.cursor r.frame.side
    · simp [before, Phase.accesses, Phase.iterations, current]
    · simp [before, Phase.accesses, Phase.iterations, current]
  | reload before passed same still after =>
    simp [before, after, Phase.accesses, Phase.iterations, stale passed]
  | @claim used later before same after =>
    by_cases current : used = s.cursor r.frame.side
    · simp [before, after, Phase.accesses, Phase.iterations, current]
    · simp [before, after, Phase.accesses, Phase.iterations, current]
  | lost before passed same still after =>
    simp [before, same.side, still, after, Phase.accesses, Phase.iterations, stale passed]
  | access before same after => simp [before, after, Phase.accesses, Phase.iterations]
  | done before => simp [before, Phase.accesses, Phase.iterations]

/-- A sound state in which a call of the thread, if it is in one, is of this
side. -/
structure Paced (t : Thread) (side : Side) (s : System Thread T C) : Prop where
  sound : Sound s
  side : ∀ r, s.threads t = some r → r.frame.side = side

/-- Undisturbed steps pay for themselves. -/
theorem step_pays {command : Command Thread T} {side : Side} (several : 2 ≤ C.size)
    (paced : Paced t side s) (moved : s.next command = some s')
    (ok : undisturbed t side s command s') :
    Paced t side s' ∧ s'.accesses t + access t s command ≤ s.accesses t ∧
      s'.iterations t + iteration t s command ≤ s.iterations t := by
  obtain ⟨⟨small, steadily⟩, stays, rests⟩ := ok
  have sound' := step_sound several paced.sound moved small
  by_cases mine : command.thread = t
  · cases command with
    | call t' request =>
      obtain rfl : t' = t := mine
      exact absurd rfl (stays request)
    | run t' spurious =>
      obtain rfl : t' = t := mine
      cases steadily spurious rfl
      cases inside : s.threads t' with
      | none => simp [System.next, System.run, inside] at moved
      | some r =>
        have turned := own_step several paced.sound inside moved
        refine ⟨⟨sound', fun later inside' => ?_⟩, ?_⟩
        · rw [inside'] at turned
          exact turned.continues.side.trans (paced.side r inside)
        · simpa only [System.accesses, System.iterations, access, iteration, inside,
            Option.elim_some, if_true] using turned.pays
  · have same := other_step moved mine
    have free : access t s command = 0 ∧ iteration t s command = 0 := by
      cases command with
      | call => exact ⟨rfl, rfl⟩
      | run t' spurious => exact ⟨if_neg mine, if_neg mine⟩
    refine ⟨⟨sound', fun later inside' => paced.side later (same ▸ inside')⟩, ?_⟩
    simp only [System.accesses, System.iterations, same, free]
    cases inside : s.threads t with
    | none => exact ⟨le_rfl, le_rfl⟩
    | some r =>
      have rest := rests mine
      rw [← paced.side r inside] at rest
      simp [rest]

/-- A call that has not returned has an access to make, and at most six. -/
theorem phase_accesses (frame : Frame T) (cursor : UInt64) :
    1 ≤ frame.phase.accesses cursor ∧ frame.phase.accesses cursor ≤ 6 ∧
      frame.phase.iterations cursor ≤ 2 := by
  cases frame with
  | push value point =>
    cases point with
    | loadPos | writeValue | storeSequence =>
      simp [Frame.phase, Phase.accesses, Phase.iterations]
    | loadSequence | exchange =>
      simp only [Frame.phase, Phase.accesses, Phase.iterations]
      split <;> simp
  | pop point =>
    cases point with
    | loadPos | readValue | storeSequence =>
      simp [Frame.phase, Phase.accesses, Phase.iterations]
    | loadSequence | exchange =>
      simp only [Frame.phase, Phase.accesses, Phase.iterations]
      split <;> simp

/-- **Every retry is paid for by another thread's progress.** In every state that
any number of threads reach with cursors below `2 ^ 63`, for calls without
spurious failures: whoever goes around the loop again does so with a larger
`pos`, because the cursor has moved past the old one; at the current cursor the
difference is not positive; and while no other thread moves the cursor, a call
begins at most two more iterations and makes at most six more accesses, none of
which is ever blocked. -/
theorem retries_paid_for [Inhabited T] (several : 2 ≤ C.size)
    (reached : (machine Thread T C).Reachable smallCursors s) :
    (∀ t r pos s₁ s' later pos', s.threads t = some r → r.frame.phase = .top pos →
      s.next (.run t false) = some s₁ → smallCursors s (.run t false) s₁ →
      (machine Thread T C).Reaches (steady t) s₁ s' →
      s'.threads t = some later → later.call = r.call → later.frame.phase = .top pos' →
      pos.toNat < pos'.toNat ∧ pos.toNat < (s'.cursor r.frame.side).toNat) ∧
    (∀ side, ¬ 0 < s.diff side (s.cursor side)) ∧
    (∀ t r commands s', s.threads t = some r →
      (machine Thread T C).Follows (undisturbed t r.frame.side) s commands s' →
      (machine Thread T C).spent (iteration t) s commands ≤ 2 ∧
      (s'.threads t ≠ none → (machine Thread T C).spent (access t) s commands < 6 ∧
        ∃ s'', s'.next (.run t false) = some s'')) := by
  have sound := run_sound several reached
  refine ⟨?_, sound.diff_cursor several, ?_⟩
  · intro t r pos s₁ s' later pos' inside top moved small onward inside' own top'
    have left := left_of_top several sound inside top moved
    have kept : Sound s' ∧ Left s' t r.call r.frame.side pos := by
      refine onward.preserves (P := fun x => Sound x ∧ Left x t r.call r.frame.side pos) ?_
        ⟨step_sound several sound moved small, left⟩
      rintro x command x' ⟨soundNow, leftNow⟩ stepped steadily
      have soundNext := step_sound several soundNow stepped steadily.1
      exact ⟨soundNext, step_left several soundNow soundNext leftNow stepped steadily⟩
    obtain ⟨same, beyond⟩ := kept.2.later later inside' own
    rw [top'] at beyond
    have pace := kept.1.pos_le inside' (.inl top')
    rw [same] at pace
    exact ⟨beyond, Nat.lt_of_lt_of_le beyond pace⟩
  · intro t r commands s' inside follows
    have paced : Paced t r.frame.side s := by
      refine ⟨sound, fun other inside' => ?_⟩
      cases inside.symm.trans inside'
      rfl
    obtain ⟨-, looped⟩ := follows.spent_le (fun x => x.iterations t) (iteration t)
      (fun kept moved ok => ⟨(step_pays several kept moved ok).1,
        (step_pays several kept moved ok).2.2⟩) paced
    obtain ⟨-, made⟩ := follows.spent_le (fun x => x.accesses t) (access t)
      (fun kept moved ok => ⟨(step_pays several kept moved ok).1,
        (step_pays several kept moved ok).2.1⟩) paced
    have budget := phase_accesses r.frame (s.cursor r.frame.side)
    simp only [System.iterations, System.accesses, inside, Option.elim_some] at looped made
    refine ⟨by omega, fun running => ?_⟩
    obtain ⟨later, inside'⟩ := Option.ne_none_iff_exists'.mp running
    have more := (phase_accesses later.frame (s'.cursor later.frame.side)).1
    simp only [inside', Option.elim_some] at made
    refine ⟨by omega, ?_⟩
    simp only [System.next, System.run, inside']
    cases later.frame with
    | push | pop => exact ⟨_, rfl⟩

/-- One producer loads the cursor, another pushes a whole element past it. -/
def overtaken : List (Command Bool Bool) :=
  [.call true (.push true), .run true false, .call false (.push false), .run false false,
    .run false false, .run false false, .run false false, .run false false]

/-- The first then needs a second iteration and no third. -/
theorem retries_paid_for_overtaken :
    let two := machine Bool Bool ⟨2, by decide, by decide⟩
    ∃ s, two.execWithin smallCursors two.start overtaken = some s ∧
      s.cursor .push = 1 ∧ 0 < s.diff .push 0 ∧ ¬ 0 < s.diff .push (s.cursor .push) ∧
      ∃ r, s.threads true = some r ∧ r.frame.phase = .top 0 ∧
        ∀ commands s', two.Follows (undisturbed true r.frame.side) s commands s' →
          two.spent (iteration true) s commands ≤ 2 ∧
          (s'.threads true ≠ none → two.spent (access true) s commands < 6) := by
  intro two
  have ends : (two.execWithin smallCursors two.start overtaken).map (fun s =>
      (s.cursor .push, decide (0 < s.diff .push 0), (s.threads true).map fun r => r.frame.phase)) =
      some (1, true, some (.top 0)) := by decide
  obtain ⟨s, ran, shape⟩ := Option.map_eq_some_iff.mp ends
  simp only [Prod.mk.injEq, decide_eq_true_eq] at shape
  obtain ⟨cursor, ahead, phase⟩ := shape
  obtain ⟨r, inside, top⟩ := Option.map_eq_some_iff.mp phase
  obtain ⟨-, atCursor, bounded⟩ :=
    retries_paid_for (by decide) (Machine.execWithin_reaches overtaken ran)
  refine ⟨s, ran, cursor, ahead, atCursor .push, r, inside, top, fun commands s' follows => ?_⟩
  obtain ⟨loops, made⟩ := bounded true r commands s' inside follows
  exact ⟨loops, fun running => (made running).1⟩

end Ringio.MpmcSystem
