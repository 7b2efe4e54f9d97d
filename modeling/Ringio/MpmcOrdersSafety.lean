import Ringio.MpmcOrdersInvariant

/-! Every access of any thread keeps the invariant of `MpmcOrdersInvariant`, one
lemma for each kind of access: loads and refusals, the claim, the slot copy and
the store that hands the slot on. -/
namespace Ringio.MpmcOrders
open ReleaseAcquire SlotHandover

variable {Thread T : Type} [DecidableEq Thread] {C : Capacity} {s s' : System Thread T C}
  {t t' : Thread} {r r' : Running T} {pos pos' : UInt64}

omit [DecidableEq Thread] in
theorem RunningSound.owns (sound : RunningSound s t r) (owner : r.point.owns = some pos) :
    Owns s t r.side pos := by
  obtain ⟨side, value, point⟩ := r
  cases point with
  | loadPos | loadSequence | exchange => cases owner
  | access => cases owner; exact sound
  | storeSequence => cases owner; exact sound.1

omit [DecidableEq Thread] in
/-- What a thread's call rests on is its own view, the slot it owns and its own
part of the logs. -/
theorem RunningSound.transfer (sound : RunningSound s t r)
    (claims : ∀ side, s.claims side ≤ s'.claims side) (view : s'.views t = s.views t)
    (slots : ∀ pos, r.point.owns = some pos →
      turn s'.memory (C.index pos) = turn s.memory (C.index pos) ∧
      s'.memory.accesses (C.index pos) = s.memory.accesses (C.index pos) ∧
      s'.memory.contents (C.index pos) = s.memory.contents (C.index pos))
    (mine : ∀ side, ∀ entry ∈ s'.log side, entry.thread = t → entry ∈ s.log side)
    (pushes : ∀ entry ∈ s.log .push, entry ∈ s'.log .push) : RunningSound s' t r := by
  obtain ⟨side, value, point⟩ := r
  have owned {pos : UInt64} (owner : point.owns = some pos) (owns : Owns s t side pos) :
      Owns s' t side pos :=
    ⟨owns.claimed.trans_le (claims side), (slots pos owner).1.trans owns.turn, view ▸ owns.seen,
      fun entry member its => owns.later entry (mine side entry member its) its⟩
  cases point with
  | loadPos => trivial
  | loadSequence pos => exact Nat.le_trans sound (claims side)
  | exchange pos =>
    obtain ⟨within, seen⟩ := sound
    exact ⟨within.trans (claims side), view ▸ seen⟩
  | access pos => exact owned rfl sound
  | storeSequence pos =>
    obtain ⟨owns, accessed, seen, copied⟩ := sound
    obtain ⟨_, accesses, contents⟩ := slots pos rfl
    refine ⟨owned rfl owns, accesses.trans accessed, view ▸ seen, ?_⟩
    cases side with
    | push => exact contents.trans copied
    | pop =>
      obtain ⟨entry, member, same⟩ := copied
      exact ⟨entry, pushes entry member, same⟩

omit [DecidableEq Thread] in
/-- A slot has one owner. -/
theorem Occupied.owner_unique (occupied : Occupied s) (inside : s.threads t = some r)
    (inside' : s.threads t' = some r') (owner : r.point.owns = some pos)
    (owner' : r'.point.owns = some pos') (same : C.index pos = C.index pos') : t = t' := by
  have mine := ((occupied.running inside).owns owner).turn
  have theirs := ((occupied.running inside').owns owner').turn
  rw [← same, mine] at theirs
  rw [index_slot, index_slot] at same
  obtain ⟨sides, tickets⟩ := stage_inj same theirs
  have equal := UInt64.toNat_inj.mp tickets
  subst equal
  exact occupied.apart inside inside' owner owner' sides

omit [DecidableEq Thread] in
/-- The thread that is to access a slot knows of every access to it. -/
theorem Sound.access_ordered (sound : Sound s) (inside : s.threads t = some r)
    (accessing : r.point = .access pos) :
    s.views t (.inr (C.index pos)) = s.memory.accesses (C.index pos) ∧
      s.memory.accesses (C.index pos) = stage C r.side pos.toNat := by
  have owner : r.point.owns = some pos := by rw [accessing]; rfl
  have owns := (sound.occupied.running inside).owns owner
  have most : s.memory.accesses (C.index pos) ≤ turn s.memory (C.index pos) := by
    refine sound.occupied.rest fun t' r' pos' inside' storing same => ?_
    have owner' : r'.point.owns = some pos' := by rw [storing]; rfl
    have equal := sound.occupied.owner_unique inside' inside owner' owner same
    subst equal
    rw [inside] at inside'
    cases inside'
    rw [accessing] at storing
    cases storing
  have some := (sound.viewed.known t).accesses (C.index pos)
  have informed := sound.viewed.informed t (C.index pos)
  have seen := owns.seen
  rw [owns.turn] at most
  omega

section
variable {m : Memory (Location C) (Fin C.size) UInt64 T} {view : View (Location C) (Fin C.size)}
  {running : Option (Running T)}

@[simp] theorem move_threads_self : (s.move t m view running).threads t = running :=
  Function.update_self ..

@[simp] theorem move_views_self : (s.move t m view running).views t = view :=
  Function.update_self ..

theorem move_threads_other (apart : t' ≠ t) :
    (s.move t m view running).threads t' = s.threads t' := Function.update_of_ne apart _ _

theorem move_views_other (apart : t' ≠ t) :
    (s.move t m view running).views t' = s.views t' := Function.update_of_ne apart _ _

/-- A call that owns a slot after a move is the mover's or was there before. -/
theorem move_owner (inside : (s.move t m view running).threads t' = some r') :
    t' = t ∧ running = some r' ∨ t' ≠ t ∧ s.threads t' = some r' := by
  by_cases same : t' = t
  · subst same
    rw [move_threads_self] at inside
    exact .inl ⟨rfl, inside⟩
  · rw [move_threads_other same] at inside
    exact .inr ⟨same, inside⟩

/-- Views stay sound when the memory grows and one thread learns of it. -/
theorem Viewed.move (viewed : Viewed s) (grows : Grows s.memory m) (consistent : Consistent m)
    (passed : ∀ loc, ∀ write ∈ m.writes loc, Informed write.view) (known : Known m view)
    (informed : Informed view) : Viewed (s.move t m view running) := by
  refine ⟨consistent, fun t' => ?_, fun t' => ?_, passed⟩
  · by_cases same : t' = t
    · subst same
      rwa [move_views_self]
    · rw [move_views_other same]
      exact (viewed.known t').mono grows
  · by_cases same : t' = t
    · subst same
      rwa [move_views_self]
    · rw [move_views_other same]
      exact viewed.informed t'

/-- The same when the memory has one more write. -/
theorem Viewed.append (viewed : Viewed s) {loc : Location C} {value : UInt64}
    {passed : View (Location C) (Fin C.size)} (informed : Informed passed)
    (known : Known (s.memory.append loc ⟨value, passed⟩) passed)
    (mine : Known (s.memory.append loc ⟨value, passed⟩) view) (informed' : Informed view) :
    Viewed (s.move t (s.memory.append loc ⟨value, passed⟩) view running) := by
  refine viewed.move (append_grows _ _ _) (viewed.consistent.append known) ?_ mine informed'
  intro other write member
  by_cases same : other = loc
  · subst same
    rw [Memory.append_self] at member
    rcases List.mem_append.mp member with before | last
    · exact viewed.passed other write before
    · rw [List.mem_singleton.mp last]
      exact informed
  · rw [Memory.append_other _ _ same] at member
    exact viewed.passed other write member

/-- One more write of a location that continues its values. -/
theorem Recorded.append (recorded : Recorded s) {loc : Location C}
    {write : Write (Location C) (Fin C.size) UInt64}
    (cursor : ∀ side : Side, loc = side.cursor C →
      write.value = .ofNat (s.memory.writes loc).length)
    (sequence : ∀ i, loc = .sequence i →
      write.value = .ofNat (sequenceAt i (s.memory.writes loc).length) ∧
        (s.memory.writes loc).length ≤ write.view (.inl loc)) :
    Recorded (s.move t (s.memory.append loc write) view running) := by
  refine ⟨fun other => ?_, fun found => ?_, fun found => ?_⟩
  · exact (recorded.positive other).trans_le
      ((append_grows s.memory loc write).writes other).length_le
  · rcases Memory.append_getElem? found with before | ⟨rfl, rfl, rfl⟩
    · exact recorded.cursors before
    · exact cursor _ rfl
  · rcases Memory.append_getElem? found with before | ⟨rfl, rfl, rfl⟩
    · exact recorded.sequences before
    · exact sequence _ rfl

end

/-! ## Loads, refusals and calls -/

/-- A thread that owns nothing may change its view and its place in the program. -/
theorem Sound.quiet (sound : Sound s) {view : View (Location C) (Fin C.size)}
    {running : Option (Running T)} (free : ∀ r, s.threads t = some r → r.point.owns = none)
    (known : Known s.memory view) (informed : Informed view)
    (onward : ∀ r, running = some r → r.point.owns = none ∧
      RunningSound (s.move t s.memory view running) t r) :
    Sound (s.move t s.memory view running) := by
  have owner {t' : Thread} {r' : Running T} {pos : UInt64}
      (inside : (s.move t s.memory view running).threads t' = some r')
      (owner : r'.point.owns = some pos) : s.threads t' = some r' := by
    rcases move_owner inside with ⟨_, mine⟩ | ⟨_, before⟩
    · rw [(onward r' mine).1] at owner
      cases owner
    · exact before
  refine ⟨sound.clean, ⟨sound.recorded.positive, sound.recorded.cursors, sound.recorded.sequences⟩,
    sound.viewed.move (Grows.refl _) sound.viewed.consistent
      sound.viewed.passed known informed,
    ⟨sound.balanced.ready, sound.balanced.claimed⟩,
    ⟨sound.logged.stored, sound.logged.delivered, sound.logged.distinct, sound.logged.ordered⟩,
    ⟨fun {t' r'} inside => ?_, fun inside inside' own own' sides => ?_, fun {i} resting => ?_,
      sound.occupied.published⟩⟩
  · rcases move_owner inside with ⟨rfl, mine⟩ | ⟨apart, before⟩
    · exact (onward r' mine).2
    · exact (sound.occupied.running before).transfer (fun _ => le_rfl) (move_views_other apart)
        (fun _ _ => ⟨rfl, rfl, rfl⟩) (fun _ _ member _ => member) (fun _ member => member)
  · exact sound.occupied.apart (owner inside own) (owner inside' own') own own' sides
  · refine sound.occupied.rest fun t' r' pos inside storing => resting t' r' pos ?_ storing
    have apart : t' ≠ t := fun same => by
      subst same
      have none := free r' inside
      rw [storing] at none
      cases none
    rwa [move_threads_other apart]

/-! ## The claim -/

omit [DecidableEq Thread] in
/-- The memory after a successful compare-exchange. -/
theorem Sound.exchange_memory (sound : Sound s) {side : Side}
    {m : Memory (Location C) (Fin C.size) UInt64 T} {view : View (Location C) (Fin C.size)}
    (small : s.claims side < 2 ^ 63) (latest : s.memory.latest (side.cursor C) = some pos)
    (done : s.memory.exchange (s.views t) .relaxed .relaxed (side.cursor C) (pos + 1) =
      some (m, view)) :
    pos.toNat = s.claims side ∧ view = (s.views t).see (side.cursor C) (s.claims side + 1) ∧
      ∃ passed, m = s.memory.append (side.cursor C) ⟨.ofNat (s.claims side + 1), passed⟩ ∧
        Informed passed ∧ Known m passed ∧ Known m view := by
  have positive := sound.recorded.positive (side.cursor C)
  have length : (s.memory.writes (side.cursor C)).length = s.claims side + 1 := by
    unfold System.claims
    omega
  obtain ⟨last, found, viewed, appended⟩ := Memory.exchange_eq_some done
  have member := List.mem_of_getLast? found
  rw [Memory.latest, found] at latest
  rw [List.getLast?_eq_getElem?, length] at found
  have value := sound.recorded.cursors found
  have claimed : pos = .ofNat (s.claims side) := (Option.some.inj latest).symm.trans value
  have bound : pos.toNat = s.claims side := by
    rw [claimed, UInt64.toNat_ofNat', Nat.mod_eq_of_lt (by omega)]
  rw [length] at viewed appended
  refine ⟨bound, viewed, last.view ⊔ view.give .relaxed (side.cursor C) (s.claims side + 1), ?_,
    ?_, ?_, ?_⟩
  · rw [appended, claimed, Cursor.ofNat_add_one]
  · refine (sound.viewed.passed _ last member).sup ?_
    exact Informed.see_cursor (fun _ => le_rfl) side _
  · have grows := append_grows s.memory (side.cursor C)
      ⟨pos + 1, last.view ⊔ view.give .relaxed (side.cursor C) (s.claims side + 1)⟩
    rw [appended]
    refine ((sound.viewed.consistent _ last member).mono grows).sup ?_
    have zero : Known s.memory fun _ => 0 := ⟨fun loc => sound.recorded.positive loc,
      fun _ => Nat.zero_le _⟩
    have added := zero.append (side.cursor C)
      ⟨pos + 1, last.view ⊔ view.give .relaxed (side.cursor C) (s.claims side + 1)⟩
    rwa [length] at added
  · have added := (sound.viewed.known t).append (side.cursor C)
      ⟨pos + 1, last.view ⊔ view.give .relaxed (side.cursor C) (s.claims side + 1)⟩
    rw [length] at added
    rw [appended, viewed]
    exact added

theorem turn_append_cursor (m : Memory (Location C) (Fin C.size) UInt64 T) (side : Side)
    (write : Write (Location C) (Fin C.size) UInt64) (i : Fin C.size) :
    turn (m.append (side.cursor C) write) i = turn m i := by
  unfold turn
  rw [Memory.append_other _ _ (cursor_ne_sequence side i)]

/-- A thread whose exchange succeeds owns the slot of the position. -/
theorem Sound.claim (sound : Sound s) (inside : s.threads t = some r)
    (exchanging : r.point = .exchange pos) (claimed : pos.toNat = s.claims r.side)
    {passed : View (Location C) (Fin C.size)} (informed : Informed passed)
    (known : Known (s.memory.append (r.side.cursor C) ⟨.ofNat (s.claims r.side + 1), passed⟩) passed)
    (mine : Known (s.memory.append (r.side.cursor C) ⟨.ofNat (s.claims r.side + 1), passed⟩)
      ((s.views t).see (r.side.cursor C) (s.claims r.side + 1))) :
    Sound (s.move t
      (s.memory.append (r.side.cursor C) ⟨.ofNat (s.claims r.side + 1), passed⟩)
      ((s.views t).see (r.side.cursor C) (s.claims r.side + 1))
      (some { r with point := .access pos })) := by
  obtain ⟨clean, recorded, viewed, balanced, logged, occupied⟩ := sound
  have seen : stage C r.side pos.toNat ≤ s.views t (.inl (.sequence (C.index pos))) := by
    have running := occupied.running inside
    unfold RunningSound at running
    rw [exchanging] at running
    exact running.2
  have length : (s.memory.writes (r.side.cursor C)).length = s.claims r.side + 1 := by
    have positive := recorded.positive (r.side.cursor C)
    unfold System.claims
    omega
  have atTurn : turn s.memory (C.index pos) = stage C r.side pos.toNat := by
    have most := (viewed.known t).writes (.sequence (C.index pos))
    have unclaimed : ¬ stage C r.side pos.toNat < turn s.memory (slot C pos.toNat) := fun later => by
      have below := balanced.claimed r.side later
      omega
    rw [← index_slot] at unclaimed
    unfold turn at unclaimed ⊢
    omega
  generalize moved : s.move t _ _ _ = s'
  have memory : s'.memory = s.memory.append (r.side.cursor C)
    ⟨.ofNat (s.claims r.side + 1), passed⟩ := by rw [← moved]; rfl
  have log : s'.log = s.log := by rw [← moved]; rfl
  have turns (i : Fin C.size) : turn s'.memory i = turn s.memory i := by
    rw [memory, turn_append_cursor]
  have more : s'.claims r.side = s.claims r.side + 1 := by
    show (s'.memory.writes (r.side.cursor C)).length - 1 = _
    rw [memory, Memory.append_self, List.length_append, length]
    rfl
  have others {side : Side} (apart : side ≠ r.side) : s'.claims side = s.claims side := by
    have elsewhere : side.cursor C ≠ r.side.cursor C := fun same => apart (cursor_inj same)
    simp only [System.claims, memory, Memory.append_other _ _ elsewhere]
  have grown (side : Side) : s.claims side ≤ s'.claims side := by
    by_cases same : side = r.side
    · subst same
      omega
    · rw [others same]
  have inside' {t' : Thread} {r' : Running T} (now : s'.threads t' = some r') :
      t' = t ∧ r' = { r with point := .access pos } ∨ t' ≠ t ∧ s.threads t' = some r' := by
    rw [← moved] at now
    rcases move_owner now with ⟨same, mine⟩ | before
    · exact .inl ⟨same, (Option.some.inj mine).symm⟩
    · exact .inr before
  have fresh {t' : Thread} {r' : Running T} (before : s.threads t' = some r')
      (owner : r'.point.owns = some pos) (sides : r'.side = r.side) : False := by
    have below := ((occupied.running before).owns owner).claimed
    rw [sides] at below
    omega
  refine ⟨by rw [memory]; exact clean, ?_, ?_, ⟨fun side j below => ?_, fun side j stored => ?_⟩,
    ⟨fun entry member => ?_, ?_, ?_, ?_⟩,
    ⟨fun {t' r'} now => ?_, fun {t₁ t₂ r₁ r₂ pos'} now now' own own' sides => ?_,
      fun {i} resting => ?_, fun {j} published => ?_⟩⟩
  · rw [← moved]
    refine recorded.append (fun _ _ => by rw [length]) (fun i same => ?_)
    exact (cursor_ne_sequence r.side i same.symm).elim
  · rw [← moved]
    exact viewed.append informed known mine ((viewed.informed t).see_cursor _ _)
  · rw [turns]
    by_cases same : side = r.side
    · subst same
      rcases Nat.lt_or_ge j (s.claims r.side) with before | last
      · exact balanced.ready _ before
      · have equal : j = pos.toNat := by omega
        rw [equal, ← index_slot, atTurn]
    · exact balanced.ready _ (others same ▸ below)
  · rw [turns] at stored
    exact (balanced.claimed side stored).trans_le (grown side)
  · rw [turns]
    rw [log] at member
    exact logged.stored entry member
  · rw [log]
    exact logged.delivered
  · rw [log]
    exact logged.distinct
  · rw [log]
    exact logged.ordered
  · rcases inside' now with ⟨rfl, rfl⟩ | ⟨apart, before⟩
    · show Owns s' _ r.side pos
      refine ⟨by omega, by rw [turns]; exact atTurn, ?_, fun entry member _ => ?_⟩
      · rw [← moved, move_views_self, View.see_other _ _ (cursor_ne_sequence _ _)]
        exact seen
      · rw [log] at member
        have below := balanced.claimed _ (logged.stored entry member)
        omega
    · refine (occupied.running before).transfer grown ?_ (fun pos' _ => ⟨turns _, ?_, ?_⟩) ?_ ?_
      · rw [← moved, move_views_other apart]
      · rw [memory]
        rfl
      · rw [memory]
        rfl
      · rw [log]
        exact fun _ _ member _ => member
      · rw [log]
        exact fun _ member => member
  · rcases inside' now with ⟨rfl, rfl⟩ | ⟨apart, before⟩ <;>
      rcases inside' now' with ⟨rfl, rfl⟩ | ⟨apart', before'⟩
    · rfl
    · cases own
      exact (fresh before' own' sides.symm).elim
    · cases own'
      exact (fresh before own sides).elim
    · exact occupied.apart before before' own own' sides
  · rw [turns, memory]
    refine occupied.rest fun t' r' pos' before storing => ?_
    have apart : t' ≠ t := fun same => by
      subst same
      rw [inside] at before
      cases before
      rw [exchanging] at storing
      cases storing
    refine resting t' r' pos' ?_ storing
    rw [← moved, move_threads_other apart]
    exact before
  · rw [turns] at published
    rw [log, memory]
    exact occupied.published published

/-! ## The slot copy -/

/-- The owner of a slot accesses it. A push may change what the slot holds. -/
theorem Sound.accessed (sound : Sound s) (inside : s.threads t = some r)
    (accessing : r.point = .access pos) {contents : Fin C.size → T} {value : T}
    (kept : ∀ i, i ≠ C.index pos ∨ r.side = .pop → contents i = s.memory.contents i)
    (moved : s' = s.move t
      { s.memory with
        accesses := Function.update s.memory.accesses (C.index pos)
          (s.memory.accesses (C.index pos) + 1)
        contents := contents }
      (Function.update (s.views t) (.inr (C.index pos)) (s.memory.accesses (C.index pos) + 1))
      (some ⟨r.side, value, .storeSequence pos⟩))
    (copied : Copied s' ⟨r.side, value, .storeSequence pos⟩ pos) : Sound s' := by
  have owner : r.point.owns = some pos := by rw [accessing]; rfl
  obtain ⟨ordered, accesses⟩ := sound.access_ordered inside accessing
  obtain ⟨clean, recorded, viewed, balanced, logged, occupied⟩ := id sound
  have owns := (occupied.running inside).owns owner
  have known := viewed.known t
  have grows := access_grows s.memory (C.index pos) contents
  have inside' {t' : Thread} {r' : Running T} (now : s'.threads t' = some r') :
      t' = t ∧ r' = ⟨r.side, value, .storeSequence pos⟩ ∨ t' ≠ t ∧ s.threads t' = some r' := by
    rw [moved] at now
    rcases move_owner now with ⟨same, mine⟩ | before
    · exact .inl ⟨same, (Option.some.inj mine).symm⟩
    · exact .inr before
  have was {t' : Thread} {r' : Running T} {pos' : UInt64} (now : s'.threads t' = some r')
      (own : r'.point.owns = some pos') :
      ∃ old, s.threads t' = some old ∧ old.point.owns = some pos' ∧ old.side = r'.side := by
    rcases inside' now with ⟨rfl, rfl⟩ | ⟨_, before⟩
    · exact ⟨r, inside, owner.trans own, rfl⟩
    · exact ⟨r', before, own, rfl⟩
  have elsewhere {i : Fin C.size} (apart : i ≠ C.index pos) :
      s'.memory.accesses i = s.memory.accesses i ∧ s'.memory.contents i = s.memory.contents i := by
    rw [moved]
    exact ⟨Function.update_of_ne apart _ _, kept i (.inl apart)⟩
  have here : s'.memory.accesses (C.index pos) = stage C r.side pos.toNat + 1 := by
    rw [moved, ← accesses]
    exact Function.update_self ..
  subst moved
  refine ⟨clean, ⟨recorded.positive, recorded.cursors, recorded.sequences⟩,
    viewed.move grows (viewed.consistent.grow grows rfl) viewed.passed (known.access _ _)
      ((viewed.informed t).access known _),
    ⟨balanced.ready, balanced.claimed⟩,
    ⟨logged.stored, logged.delivered, logged.distinct, logged.ordered⟩,
    ⟨fun {t' r'} now => ?_, fun {t₁ t₂ r₁ r₂ pos'} now now' own own' sides => ?_,
      fun {i} resting => ?_, fun {j} published => ?_⟩⟩
  · rcases inside' now with ⟨rfl, rfl⟩ | ⟨apart, before⟩
    · refine ⟨⟨owns.claimed, owns.turn, ?_, owns.later⟩, here, ?_, copied⟩
      · rw [move_views_self, Function.update_of_ne (fun same => by cases same)]
        exact owns.seen
      · rw [move_views_self, Function.update_self, accesses]
    · refine (occupied.running before).transfer (fun _ => le_rfl) (move_views_other apart)
        (fun pos' own => ⟨rfl, ?_⟩) (fun _ _ member _ => member) (fun _ member => member)
      exact elsewhere fun same => apart (occupied.owner_unique before inside own owner same)
  · obtain ⟨old, before, own, side⟩ := was now own
    obtain ⟨old', before', own', side'⟩ := was now' own'
    exact occupied.apart before before' own own' (side.trans (sides.trans side'.symm))
  · have apart : i ≠ C.index pos := fun same =>
      resting t _ pos move_threads_self rfl same.symm
    rw [(elsewhere apart).1]
    refine occupied.rest fun t' r' pos' before storing => ?_
    have another : t' ≠ t := fun same => by
      subst same
      rw [inside] at before
      cases before
      rw [accessing] at storing
      cases storing
    refine resting t' r' pos' ?_ storing
    rwa [move_threads_other another]
  · obtain ⟨entry, member, ticket, same⟩ := occupied.published published
    refine ⟨entry, member, ticket, same.trans (kept _ ?_).symm⟩
    by_cases place : slot C j = C.index pos
    · right
      have stages : stage C .pop j = stage C r.side pos.toNat := by
        rw [stage_pop, ← owns.turn, ← place]
        exact published.symm
      rw [index_slot] at place
      exact (stage_inj place stages).1.symm
    · exact .inl place

theorem Sound.copy (sound : Sound s) (inside : s.threads t = some r)
    (accessing : r.point = .access pos) : Sound (s.copy t r pos) := by
  obtain ⟨ordered, accesses⟩ := sound.access_ordered inside accessing
  have owns : Owns s t r.side pos := by
    refine (sound.occupied.running inside).owns ?_
    rw [accessing]
    rfl
  obtain ⟨side, value, point⟩ := r
  cases side with
  | push =>
    simp only [System.copy, Memory.write_ordered value ordered]
    refine sound.accessed inside accessing (fun i other => ?_) rfl (Function.update_self ..)
    refine Function.update_of_ne (other.resolve_right fun same => by cases same) _ _
  | pop =>
    simp only [System.copy, Memory.access_ordered ordered]
    refine sound.accessed inside accessing (fun _ _ => rfl) rfl ?_
    have available : turn s.memory (slot C pos.toNat) = stage C .push pos.toNat + 1 := by
      rw [← index_slot, owns.turn, stage_pop]
    obtain ⟨entry, member, ticket, same⟩ := sound.occupied.published available
    refine ⟨entry, member, ticket, same.trans ?_⟩
    rw [← index_slot]

/-! ## The store -/

theorem claims_append_sequence {loc : Location C} {i : Fin C.size} (side : Side)
    (write : Write (Location C) (Fin C.size) UInt64)
    {m : Memory (Location C) (Fin C.size) UInt64 T} (at_slot : loc = .sequence i) :
    (m.append loc write).writes (side.cursor C) = m.writes (side.cursor C) :=
  Memory.append_other _ _ fun same => cursor_ne_sequence side i (at_slot ▸ same).symm

theorem turn_append_self (m : Memory (Location C) (Fin C.size) UInt64 T) (i : Fin C.size)
    (write : Write (Location C) (Fin C.size) UInt64) :
    turn (m.append (.sequence i) write) i = (m.writes (.sequence i)).length := by
  simp [turn]

theorem turn_append_other (m : Memory (Location C) (Fin C.size) UInt64 T) {i j : Fin C.size}
    (apart : j ≠ i) (write : Write (Location C) (Fin C.size) UInt64) :
    turn (m.append (.sequence i) write) j = turn m j := by
  unfold turn
  rw [Memory.append_other _ _ fun same => apart (Location.sequence.inj same)]

/-- What the store that ends a call changes: the turn of one slot, one log and its
own thread. -/
structure HandedOn (s s' : System Thread T C) (t : Thread) (r : Running T) (pos : UInt64) :
    Prop where
  left : s'.threads t = none
  threads : ∀ {t'}, t' ≠ t → s'.threads t' = s.threads t'
  views : ∀ {t'}, t' ≠ t → s'.views t' = s.views t'
  here : turn s'.memory (C.index pos) = stage C r.side pos.toNat + 1
  elsewhere : ∀ {i}, i ≠ C.index pos → turn s'.memory i = turn s.memory i
  accesses : s'.memory.accesses = s.memory.accesses
  contents : s'.memory.contents = s.memory.contents
  claims : ∀ side, s'.claims side = s.claims side
  mine : s'.log r.side = s.log r.side ++ [⟨t, pos.toNat, r.value⟩]
  others : ∀ {side}, side ≠ r.side → s'.log side = s.log side

namespace HandedOn

omit [DecidableEq Thread] in
theorem inside (handed : HandedOn s s' t r pos) (now : s'.threads t' = some r') :
    t' ≠ t ∧ s.threads t' = some r' := by
  have apart : t' ≠ t := fun same => by
    subst same
    rw [handed.left] at now
    cases now
  exact ⟨apart, handed.threads apart ▸ now⟩

omit [DecidableEq Thread] in
theorem kept (handed : HandedOn s s' t r pos) {side : Side} {entry : Entry Thread T}
    (member : entry ∈ s.log side) : entry ∈ s'.log side := by
  by_cases same : side = r.side
  · subst same
    rw [handed.mine]
    exact List.mem_append_left _ member
  · rwa [handed.others same]

omit [DecidableEq Thread] in
theorem added (handed : HandedOn s s' t r pos) {side : Side} {entry : Entry Thread T}
    (member : entry ∈ s'.log side) :
    entry ∈ s.log side ∨ side = r.side ∧ entry = ⟨t, pos.toNat, r.value⟩ := by
  by_cases same : side = r.side
  · subst same
    rw [handed.mine] at member
    rcases List.mem_append.mp member with before | now
    · exact .inl before
    · exact .inr ⟨rfl, List.mem_singleton.mp now⟩
  · exact .inl (handed.others same ▸ member)

omit [DecidableEq Thread] in
theorem later (handed : HandedOn s s' t r pos) (owns : Owns s t r.side pos) (i : Fin C.size) :
    turn s.memory i ≤ turn s'.memory i := by
  by_cases same : i = C.index pos
  · rw [same, handed.here, owns.turn]
    exact Nat.le_succ _
  · exact (handed.elsewhere same).ge

omit [DecidableEq Thread] in
theorem balanced (handed : HandedOn s s' t r pos) (owns : Owns s t r.side pos)
    (balanced : Balanced s) : Balanced s' := by
  refine ⟨fun side j below => ?_, fun side j stored => ?_⟩
  · rw [handed.claims] at below
    exact (balanced.ready side below).trans (handed.later owns _)
  · rw [handed.claims]
    by_cases place : slot C j = C.index pos
    · rw [place, handed.here] at stored
      rcases Nat.lt_succ_iff_lt_or_eq.mp stored with before | now
      · exact balanced.claimed side (by rw [place, owns.turn]; exact before)
      · rw [index_slot] at place
        obtain ⟨rfl, rfl⟩ := stage_inj place now
        exact owns.claimed
    · rw [handed.elsewhere place] at stored
      exact balanced.claimed side stored

omit [DecidableEq Thread] in
/-- A relation kept by appending to one log is kept by all. -/
theorem pairwise (handed : HandedOn s s' t r pos) {R : Entry Thread T → Entry Thread T → Prop}
    (before : ∀ side, (s.log side).Pairwise R)
    (last : ∀ entry ∈ s.log r.side, R entry ⟨t, pos.toNat, r.value⟩) (side : Side) :
    (s'.log side).Pairwise R := by
  by_cases same : side = r.side
  · subst same
    rw [handed.mine, List.pairwise_append]
    refine ⟨before _, List.pairwise_singleton _ _, fun entry member new now => ?_⟩
    rw [List.mem_singleton.mp now]
    exact last entry member
  · rw [handed.others same]
    exact before side

omit [DecidableEq Thread] in
theorem logged (handed : HandedOn s s' t r pos) (owns : Owns s t r.side pos)
    (copied : Copied s r pos) (logged : Logged s) : Logged s' := by
  refine ⟨fun {side} entry member => ?_, fun entry member => ?_, ?_, ?_⟩
  · rcases handed.added member with before | ⟨rfl, rfl⟩
    · exact (logged.stored entry before).trans_le (handed.later owns _)
    · rw [← index_slot, handed.here]
      exact Nat.lt_succ_self _
  · rcases handed.added member with before | ⟨side, rfl⟩
    · obtain ⟨origin, found, same⟩ := logged.delivered entry before
      exact ⟨origin, handed.kept found, same⟩
    · unfold Copied at copied
      rw [← side] at copied
      obtain ⟨origin, found, same⟩ := copied
      exact ⟨origin, handed.kept found, same⟩
  · refine handed.pairwise logged.distinct fun entry member same => ?_
    have stored := logged.stored entry member
    rw [same, ← index_slot, owns.turn] at stored
    exact Nat.lt_irrefl _ stored
  · exact handed.pairwise logged.ordered owns.later

omit [DecidableEq Thread] in
theorem occupied (handed : HandedOn s s' t r pos) (inside : s.threads t = some r)
    (storing : r.point = .storeSequence pos) (occupied : Occupied s) : Occupied s' := by
  have owner : r.point.owns = some pos := by rw [storing]; rfl
  have owns := (occupied.running inside).owns owner
  have running := occupied.running inside
  unfold RunningSound at running
  rw [storing] at running
  obtain ⟨_, accesses, _, copied⟩ := running
  refine ⟨fun {t' r'} now => ?_, fun now now' own own' sides => ?_, fun {i} resting => ?_,
    fun {j} published => ?_⟩
  · obtain ⟨apart, before⟩ := handed.inside now
    refine (occupied.running before).transfer (fun side => (handed.claims side).ge)
      (handed.views apart) (fun pos' own => ⟨handed.elsewhere fun same => ?_, ?_, ?_⟩)
      (fun side entry member its => ?_) (fun entry member => handed.kept member)
    · exact apart (occupied.owner_unique before inside own owner same)
    · rw [handed.accesses]
    · rw [handed.contents]
    · rcases handed.added member with before | ⟨_, rfl⟩
      · exact before
      · exact (apart its.symm).elim
  · exact occupied.apart (handed.inside now).2 (handed.inside now').2 own own' sides
  · rw [handed.accesses]
    by_cases same : i = C.index pos
    · rw [same, handed.here, accesses]
    · rw [handed.elsewhere same]
      refine occupied.rest fun t' r' pos' before storing' place => ?_
      by_cases its : t' = t
      · subst its
        rw [inside] at before
        cases before
        rw [storing] at storing'
        cases storing'
        exact same place.symm
      · exact resting t' r' pos' (by rw [handed.threads its]; exact before) storing' place
  · rw [handed.contents]
    by_cases place : slot C j = C.index pos
    · rw [place, handed.here] at published
      have stages := stage_inj (place.trans (index_slot pos)) (Nat.succ.inj published).symm
      refine ⟨⟨t, pos.toNat, r.value⟩, ?_, stages.2.symm, ?_⟩
      · rw [stages.1, handed.mine]
        exact List.mem_append_right _ (List.mem_singleton_self _)
      · unfold Copied at copied
        rw [← stages.1] at copied
        rw [place]
        exact copied.symm
    · rw [handed.elsewhere place] at published
      obtain ⟨entry, member, same⟩ := occupied.published published
      exact ⟨entry, handed.kept member, same⟩

end HandedOn

/-- The owner of a slot hands it on and returns. -/
theorem Sound.stored (sound : Sound s) (inside : s.threads t = some r)
    (storing : r.point = .storeSequence pos) {view : View (Location C) (Fin C.size)}
    (seen : view = (s.views t).see (.sequence (C.index pos)) (stage C r.side pos.toNat + 1)) :
    Sound { s.move t
        (s.memory.append (.sequence (C.index pos)) ⟨r.side.handed C pos, view⟩) view none with
      log := Function.update s.log r.side (s.log r.side ++ [⟨t, pos.toNat, r.value⟩]) } := by
  obtain ⟨clean, recorded, viewed, balanced, logged, occupied⟩ := sound
  have running := occupied.running inside
  unfold RunningSound at running
  rw [storing] at running
  obtain ⟨owns, accesses, accessed, copied⟩ := running
  have length : (s.memory.writes (.sequence (C.index pos))).length =
      stage C r.side pos.toNat + 1 := by
    have positive := recorded.positive (.sequence (C.index pos))
    have last := owns.turn
    unfold turn at last
    omega
  have known := (viewed.known t).append (.sequence (C.index pos)) ⟨r.side.handed C pos, view⟩
  have informed : Informed view := by
    rw [seen]
    exact (viewed.informed t).see_sequence accessed.ge
  rw [length, ← seen] at known
  have handed : HandedOn s { s.move t
        (s.memory.append (.sequence (C.index pos)) ⟨r.side.handed C pos, view⟩) view none with
      log := Function.update s.log r.side (s.log r.side ++ [⟨t, pos.toNat, r.value⟩]) } t r pos :=
    { left := Function.update_self ..
      threads := fun apart => Function.update_of_ne apart _ _
      views := fun apart => Function.update_of_ne apart _ _
      here := (turn_append_self _ _ _).trans length
      elsewhere := fun apart => turn_append_other _ apart _
      accesses := rfl
      contents := rfl
      claims := fun side => congrArg (List.length · - 1) (claims_append_sequence side _ rfl)
      mine := Function.update_self ..
      others := fun apart => Function.update_of_ne apart _ _ }
  have recorded' : Recorded (s.move t
      (s.memory.append (.sequence (C.index pos)) ⟨r.side.handed C pos, view⟩) view none) := by
    refine recorded.append (fun side same => (cursor_ne_sequence side _ same).elim)
      (fun i same => ?_)
    cases same
    dsimp only
    rw [length, seen, View.see_self]
    have value := handed_ofNat (C := C) r.side pos.toNat
    rw [UInt64.ofNat_toNat, ← index_slot] at value
    exact ⟨value, le_rfl⟩
  have viewed' : Viewed (s.move t
      (s.memory.append (.sequence (C.index pos)) ⟨r.side.handed C pos, view⟩) view none) :=
    viewed.append informed known known informed
  exact ⟨clean, ⟨recorded'.positive, recorded'.cursors, recorded'.sequences⟩,
    ⟨viewed'.consistent, viewed'.known, viewed'.informed, viewed'.passed⟩,
    handed.balanced owns balanced, handed.logged owns copied logged,
    handed.occupied inside storing occupied⟩

/-! ## Runs -/

/-- The two loads of a cursor: the first one, and a compare-exchange that failed. -/
theorem Sound.loadPos (sound : Sound s) (small : ∀ side, s.claims side < 2 ^ 63)
    (inside : s.threads t = some r) (free : r.point.owns = none) {number : ℕ}
    {view : View (Location C) (Fin C.size)}
    (loaded : s.memory.load (s.views t) .relaxed (r.side.cursor C) number = some (pos, view)) :
    Sound (s.move t s.memory view (some { r with point := .loadSequence pos })) := by
  obtain ⟨within, known, informed⟩ := sound.recorded.load_cursor sound.viewed (small _) loaded
  refine sound.quiet (fun r' inside' => ?_) known informed fun r' now => ?_
  · rw [inside] at inside'
    cases inside'
    exact free
  · cases now
    exact ⟨rfl, within⟩

/-- The load of a slot's sequence, and what the call makes of it. -/
theorem Sound.loadSequence (sound : Sound s) (several : 2 ≤ C.size)
    (small : ∀ side, s.claims side < 2 ^ 63) (inside : s.threads t = some r)
    (loading : r.point = .loadSequence pos) {number : ℕ} {sequence : UInt64}
    {view : View (Location C) (Fin C.size)}
    (loaded : s.memory.load (s.views t) .acquire (.sequence (C.index pos)) number =
      some (sequence, view)) :
    Sound (s.move t s.memory view (System.judge r pos sequence)) := by
  obtain ⟨rfl, made, seen, known, informed⟩ := sound.recorded.load_sequence sound.viewed loaded
  have within : pos.toNat ≤ s.claims r.side := by
    have running := sound.occupied.running inside
    unfold RunningSound at running
    rwa [loading] at running
  have bound := small r.side
  refine sound.quiet (fun r' inside' => ?_) known informed fun r' now => ?_
  · rw [inside] at inside'
    cases inside'
    rw [loading]
    rfl
  · unfold System.judge at now ⊢
    dsimp only at now ⊢
    split at now
    · rename_i equal
      cases now
      have number' := sound.balanced.ready_number several small (by omega) made
        ((Cursor.signedDiff_eq_zero _ _).mp equal)
      refine ⟨rfl, within, ?_⟩
      rw [move_views_self, ← number']
      exact seen
    · split at now
      · cases now
      · cases now
        exact ⟨rfl, trivial⟩

theorem access_sound {number : ℕ} {fails : Bool} (sound : Sound s) (several : 2 ≤ C.size)
    (small : ∀ side, s.claims side < 2 ^ 63) (inside : s.threads t = some r)
    (moved : s.access .source t r number fails = some s') : Sound s' := by
  cases point : r.point with
  | loadPos =>
    simp only [System.access, point] at moved
    obtain ⟨⟨pos, view⟩, loaded, rfl⟩ := Option.map_eq_some_iff.mp moved
    exact sound.loadPos small inside (by rw [point]; rfl) loaded
  | loadSequence pos =>
    simp only [System.access, point] at moved
    obtain ⟨⟨sequence, view⟩, loaded, rfl⟩ := Option.map_eq_some_iff.mp moved
    exact sound.loadSequence several small inside point loaded
  | exchange pos =>
    simp only [System.access, point] at moved
    split at moved
    · obtain ⟨⟨pos, view⟩, loaded, rfl⟩ := Option.map_eq_some_iff.mp moved
      exact sound.loadPos small inside (by rw [point]; rfl) loaded
    · split at moved
      · rename_i latest
        obtain ⟨⟨m, view⟩, done, rfl⟩ := Option.map_eq_some_iff.mp moved
        obtain ⟨claimed, rfl, passed, rfl, informed, known, mine⟩ :=
          sound.exchange_memory (small _) latest done
        exact sound.claim inside point claimed informed known mine
      · cases moved
  | access pos =>
    simp only [System.access, point] at moved
    cases moved
    exact sound.copy inside point
  | storeSequence pos =>
    have owns : Owns s t r.side pos := by
      refine (sound.occupied.running inside).owns ?_
      rw [point]
      rfl
    have length : (s.memory.writes (.sequence (C.index pos))).length =
        stage C r.side pos.toNat + 1 := by
      have positive := sound.recorded.positive (.sequence (C.index pos))
      have last := owns.turn
      unfold turn at last
      omega
    have settled : s.views t (.inl (.sequence (C.index pos))) + 1 =
        (s.memory.writes (.sequence (C.index pos))).length := by
      have known := (sound.viewed.known t).writes (.sequence (C.index pos))
      have seen := owns.seen
      omega
    simp only [System.access, point, Orders.source, Memory.store_settled _ _ settled,
      View.give] at moved
    cases moved
    exact sound.stored inside point (by rw [length])

theorem step_sound {command : Command Thread T} (sound : Sound s) (several : 2 ≤ C.size)
    (small : ∀ side, s.claims side < 2 ^ 63)
    (moved : s.next .source command = some s') : Sound s' := by
  cases command with
  | call t side value =>
    simp only [System.next] at moved
    split at moved
    · rename_i idle
      cases moved
      refine sound.quiet (fun r inside => ?_) (sound.viewed.known t) (sound.viewed.informed t)
        fun r now => ?_
      · rw [idle] at inside
        cases inside
      · cases now
        exact ⟨rfl, trivial⟩
    · cases moved
  | run t number fails =>
    simp only [System.next] at moved
    split at moved
    · cases moved
    · rename_i r inside
      exact access_sound sound several small inside moved

end Ringio.MpmcOrders
