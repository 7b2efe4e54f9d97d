import Ringio.MpmcOrdersSafety

/-! What callers of `MpmcRing` can rely on under release and acquire: every value
arrives once, whole, and in the order of the positions. -/
namespace Ringio.MpmcOrders
open ReleaseAcquire SlotHandover

variable {Thread T : Type} [DecidableEq Thread] {C : Capacity} {orders : Orders}
  {s s' : System Thread T C}

section
variable [Inhabited T]

theorem start_recorded : Recorded (machine Thread T C orders).start := by
  refine ⟨fun _ => Nat.one_pos, fun {side k write} found => ?_, fun {i n write} found => ?_⟩
  · obtain ⟨rfl, rfl⟩ := Memory.start_getElem? found
    cases side <;> rfl
  · obtain ⟨rfl, rfl⟩ := Memory.start_getElem? found
    refine ⟨?_, le_rfl⟩
    simp [sequenceAt, initial]

theorem start_viewed : Viewed (machine Thread T C orders).start := by
  refine ⟨Consistent.start _ _, fun _ => Known.start _ _, fun _ _ => le_rfl,
    fun loc write member => ?_⟩
  rw [List.mem_singleton.mp member]
  exact fun _ => le_rfl

theorem start_sound : Sound (machine Thread T C orders).start where
  clean := rfl
  recorded := start_recorded
  viewed := start_viewed
  balanced := ⟨fun _ _ below => (Nat.not_lt_zero _ below).elim, fun _ _ later =>
    (Nat.not_lt_zero _ later).elim⟩
  logged := by
    refine ⟨fun _ member => ?_, fun _ member => ?_, fun _ => .nil, fun _ => .nil⟩ <;> cases member
  occupied := by
    refine ⟨fun inside => ?_, fun inside => ?_, fun _ => le_rfl, fun available => ?_⟩
    · cases inside
    · cases inside
    · exact (Nat.succ_ne_zero _ available.symm).elim

/-- Every run within the range of the cursors stays sound. -/
theorem run_sound (several : 2 ≤ C.size)
    (reached : (machine Thread T C .source).Reachable smallCursors s) :
    Sound s ∧ ∀ side, s.claims side < 2 ^ 63 := by
  refine reached.invariant (P := fun s => Sound s ∧ ∀ side, s.claims side < 2 ^ 63)
    ⟨start_sound, fun side => ?_⟩ fun holds moved small => ?_
  · cases side <;> exact Nat.two_pow_pos 63
  · exact ⟨step_sound holds.1 several holds.2 moved, small⟩

end

omit [DecidableEq Thread] in
/-- Pops claim only positions that were pushed, and pushes at most a lap more than
has been popped. -/
theorem Balanced.window (balanced : Balanced s) :
    s.claims .pop ≤ s.claims .push ∧ s.claims .push ≤ s.claims .pop + C.size := by
  constructor
  · rcases Nat.eq_zero_or_pos (s.claims .pop) with none | some
    · omega
    · have ready := balanced.ready .pop (Nat.sub_one_lt_of_lt some)
      have pushed := balanced.claimed .push (Nat.lt_of_succ_le ready)
      omega
  · by_contra beyond
    obtain ⟨j, last⟩ : ∃ j, s.claims .push = j + C.size + 1 :=
      ⟨s.claims .push - C.size - 1, by omega⟩
    have ready := balanced.ready .push (j := j + C.size) (by omega)
    rw [stage_push_add, slot_add] at ready
    have popped := balanced.claimed .pop (Nat.lt_of_succ_le ready)
    omega

/-- **Every value arrives exactly once under the ring's own memory orders.** For
any number of threads and every run in which loads may return old cursors and old
sequences: no slot access races; no two pushes and no two pops have the same
position; a pop returns the value of the push that had its position; the positions
of one thread's pushes increase, and so do those of its pops; and pops never run
ahead of pushes nor fall more than `Capacity` behind. -/
theorem weak_memory_exactly_once [Inhabited T] (several : 2 ≤ C.size)
    (reached : (machine Thread T C .source).Reachable smallCursors s) :
    s.memory.faults = [] ∧
    (∀ side, (s.log side).Pairwise fun a b => a.ticket ≠ b.ticket) ∧
    (∀ entry ∈ s.log .pop, ∃ origin ∈ s.log .push,
      origin.ticket = entry.ticket ∧ origin.value = entry.value) ∧
    (∀ side, (s.log side).Pairwise fun a b => a.thread = b.thread → a.ticket < b.ticket) ∧
    s.claims .pop ≤ s.claims .push ∧ s.claims .push ≤ s.claims .pop + C.size := by
  obtain ⟨sound, _⟩ := run_sound several reached
  exact ⟨sound.clean, sound.logged.distinct, sound.logged.delivered, sound.logged.ordered,
    sound.balanced.window⟩

/-- One thread pushes twice and another pops; its first look at the sequence is an
old one and it gives up, then its exchange fails and reads an old cursor. -/
def lagging : List (Command Bool ℕ) :=
  [.call true .push 7, .run true 0 false, .run true 0 false, .run true 0 false,
    .run true 0 false, .run true 0 false, .call true .push 8, .run true 1 false,
    .run true 0 false, .run true 0 false, .run true 0 false, .run true 0 false,
    .call false .pop 0, .run false 0 false, .run false 0 false,
    .call false .pop 0, .run false 0 false, .run false 1 false, .run false 0 true,
    .run false 1 false, .run false 0 false, .run false 0 false, .run false 0 false]

/-- There the pop still returns what was pushed first. -/
theorem weak_memory_exactly_once_lagging :
    let two := machine Bool ℕ ⟨2, by decide, by decide⟩ .source
    ∃ s, two.execWithin smallCursors two.start lagging = some s ∧
      (s.log .pop).map (fun entry => (entry.ticket, entry.value)) = [(0, 7)] ∧
      s.memory.faults = [] ∧ s.claims .pop ≤ s.claims .push := by
  intro two
  have ends : (two.execWithin smallCursors two.start lagging).map (fun s =>
      (s.log .pop).map (fun entry => (entry.ticket, entry.value))) = some [(0, 7)] := by
    decide
  obtain ⟨s, ran, shape⟩ := Option.map_eq_some_iff.mp ends
  have results := weak_memory_exactly_once (by decide) (Machine.execWithin_reaches lagging ran)
  exact ⟨s, ran, shape, results.1, results.2.2.2.2.1⟩

end Ringio.MpmcOrders
