import Ringio.FreeListSystem

/-! The free list is a stack under any interleaving, as long as the tag does not
come around under a thread that is about to exchange the head. The tag counts
successful exchanges, so a head word that still equals a thread's snapshot is
the snapshot's own, and then the successor read since is still the head's. In a
pool of one buffer there is no other successor to read. -/
namespace Ringio.FreeListSystem
open LinkedStack

variable {Thread : Type} {bufferCount : ℕ} {s s' : System Thread} {t : Thread} {r : Running}
  {free : List UInt32} {index next : UInt32} {head : UInt64} {seen : ℕ}

/-- What a head word read after `seen` exchanges tells later: its tag is that
count, and it is the head as long as the count has not moved. -/
structure Snapshot (bufferCount : ℕ) (s : System Thread) (head : UInt64) (seen : ℕ) : Prop where
  past : seen ≤ s.swaps
  tag : unpackTag head = .ofNat seen
  proper : unpackIndex head ≠ kInvalidIndex
  inRange : (unpackIndex head).toNat < bufferCount
  current : seen = s.swaps → head = s.list.freeHead

/-- What a thread's locals guarantee at each program point. -/
def FrameSound (bufferCount : ℕ) (s : System Thread) (r : Running) : Prop :=
  match r.frame with
  | .acquire .loadHead => True
  | .acquire (.loadNext head) => Snapshot bufferCount s head r.seen
  | .acquire (.exchange head next) => Snapshot bufferCount s head r.seen ∧
    (r.seen = s.swaps → s.list.next (unpackIndex head) = next)
  | .release _ .loadHead | .release _ (.storeNext _) => True
  | .release index (.exchange head) => s.list.next index = unpackIndex head

/-- The list threads these indices, the tag counts exchanges, every index is in
one place, and the log is a history of a stack that has come to this. -/
structure Sound (bufferCount : ℕ) (s : System Thread) (free : List UInt32) : Prop where
  threads : s.list.Threads free
  tag : unpackTag s.list.freeHead = .ofNat s.swaps
  placed : Placed (fun index : UInt32 => index.toNat < bufferCount) free s.held s.releasing
  frames : ∀ t r, s.threads t = some r → FrameSound bufferCount s r
  legal : Legal (FreeList.initial bufferCount) s.log free

theorem Sound.proper (sound : Sound bufferCount s free) (t : Thread) (head : UInt64)
    (next : UInt32) (seen : ℕ) (exchanging : Exchanging s t head next seen) :
    unpackIndex head ≠ kInvalidIndex :=
  (sound.frames t _ exchanging).1.proper

/-- A frame's guarantees survive a step that keeps the head while it keeps the
count, and leaves the successors the frame relies on alone. -/
theorem FrameSound.transfer (sound : FrameSound bufferCount s r) (swaps : s.swaps ≤ s'.swaps)
    (head : s'.swaps = s.swaps → s'.list.freeHead = s.list.freeHead)
    (top : s'.swaps = s.swaps → unpackIndex s.list.freeHead ≠ kInvalidIndex →
      s'.list.next (unpackIndex s.list.freeHead) = s.list.next (unpackIndex s.list.freeHead))
    (carried : ∀ index, r.frame.carries = some index → s'.list.next index = s.list.next index) :
    FrameSound bufferCount s' r := by
  have snapshot {word : UInt64} {seen : ℕ} (before : Snapshot bufferCount s word seen) :
      Snapshot bufferCount s' word seen := by
    refine ⟨before.past.trans swaps, before.tag, before.proper, before.inRange, fun now => ?_⟩
    have past := before.past
    rw [head (by omega)]
    exact before.current (by omega)
  obtain ⟨frame, seen⟩ := r
  cases frame with
  | acquire point =>
    cases point with
    | loadHead => trivial
    | loadNext word => exact snapshot sound
    | exchange word next =>
      obtain ⟨before, followed⟩ := sound
      refine ⟨snapshot before, fun now => ?_⟩
      have past := before.past
      have now' : seen = s.swaps := by
        simp only at now past
        omega
      have same := before.current now'
      have proper := before.proper
      rw [same] at followed proper ⊢
      rw [top (now.symm.trans now') proper]
      exact followed now'
  | release index point =>
    cases point with
    | loadHead | storeNext => trivial
    | exchange word => exact (carried index rfl).trans sound

variable [DecidableEq Thread]

/-- When one thread moves, what is carried changes at that thread only. -/
theorem placed_update {x : Option Running} {stack held : List UInt32}
    (threads : s'.threads = Function.update s.threads t x)
    (placed : Placed (fun index : UInt32 => index.toNat < bufferCount) stack held
      (Function.update s.releasing t (x.bind fun r => r.frame.carries))) :
    Placed (fun index : UInt32 => index.toNat < bufferCount) stack held s'.releasing := by
  have same : s'.releasing = Function.update s.releasing t (x.bind fun r => r.frame.carries) := by
    funext t'
    by_cases mine : t' = t
    · subst mine
      simp [System.releasing, threads]
    · simp [System.releasing, threads, mine]
  rwa [same]

/-- A thread that goes on carrying what it carried moves no index. -/
theorem placed_same {x : Option Running} {stack held : List UInt32}
    (threads : s'.threads = Function.update s.threads t x)
    (carries : s.releasing t = x.bind fun r => r.frame.carries)
    (placed : Placed (fun index : UInt32 => index.toNat < bufferCount) stack held s.releasing) :
    Placed (fun index : UInt32 => index.toNat < bufferCount) stack held s'.releasing := by
  refine placed_update threads ?_
  rwa [← carries, Function.update_eq_self]

/-- A thread moves on without writing anything. -/
theorem Sound.shift (sound : Sound bufferCount s free) (same : s.releasing t = r.frame.carries)
    (frame : FrameSound bufferCount s r) : Sound bufferCount (s.shift t r) free where
  threads := sound.threads
  tag := sound.tag
  placed := placed_same rfl same sound.placed
  frames t' r' inside := by
    have kept {r'' : Running} (before : FrameSound bufferCount s r'') :
        FrameSound bufferCount (s.shift t r) r'' :=
      before.transfer le_rfl (fun _ => rfl) (fun _ _ => rfl) fun _ _ => rfl
    by_cases mine : t' = t
    · subst mine
      simp only [System.shift, Function.update_self] at inside
      cases inside
      exact kept frame
    · simp only [System.shift, Function.update_of_ne mine] at inside
      exact kept (sound.frames t' r' inside)
  legal := sound.legal

/-- The frames of the other threads after a call has returned. -/
private theorem frames_finish (frames : ∀ t r, s.threads t = some r → FrameSound bufferCount s r)
    (threads : s'.threads = Function.update s.threads t none)
    (keeps : ∀ r, FrameSound bufferCount s r → FrameSound bufferCount s' r) (t' : Thread)
    (r' : Running) (inside : s'.threads t' = some r') : FrameSound bufferCount s' r' := by
  rw [threads] at inside
  by_cases mine : t' = t
  · subst mine
    rw [Function.update_self] at inside
    cases inside
  · rw [Function.update_of_ne mine] at inside
    exact keeps r' (frames t' r' inside)

/-- An acquiring thread finds the list empty. -/
theorem Sound.empty (sound : Sound bufferCount s free) (acquiring : s.releasing t = none)
    (ended : unpackIndex s.list.freeHead = kInvalidIndex) :
    free = [] ∧ Sound bufferCount (s.finish t (.popped none)) free := by
  have none : free = [] := sound.threads.nil_of_eq ended
  refine ⟨none, sound.threads, sound.tag, ?_, ?_, ?_⟩
  · exact placed_same rfl acquiring sound.placed
  · exact frames_finish sound.frames rfl fun r before =>
      before.transfer le_rfl (fun _ => rfl) (fun _ _ => rfl) fun _ _ => rfl
  · subst none
    exact sound.legal.empty

/-- A caller gives a held index to `release`. -/
theorem Sound.withdraw (sound : Sound bufferCount s free) (idle : s.threads t = none)
    (owned : index ∈ s.held) : Sound bufferCount (s.withdraw t index) free where
  threads := sound.threads
  tag := sound.tag
  placed := by
    have carries : s.releasing t = none := by rw [System.releasing, idle]; rfl
    exact placed_update rfl (sound.placed.withdraw owned carries)
  frames t' r' inside := by
    by_cases mine : t' = t
    · subst mine
      simp only [System.withdraw, System.shift, Function.update_self] at inside
      cases inside
      trivial
    · simp only [System.withdraw, System.shift, Function.update_of_ne mine] at inside
      exact (sound.frames t' r' inside).transfer le_rfl (fun _ => rfl) (fun _ _ => rfl)
        fun _ _ => rfl
  legal := sound.legal

/-- An acquiring thread whose successor is still the head's exchanges the head:
it takes the first index, and the list starts at that successor. -/
theorem Sound.take (sound : Sound bufferCount s free)
    (exchanging : Exchanging s t s.list.freeHead next seen)
    (successor : s.list.next (unpackIndex s.list.freeHead) = next) :
    ∃ rest, free = unpackIndex s.list.freeHead :: rest ∧
      Sound bufferCount (s.take t
        { s.list with freeHead := pack next (unpackTag s.list.freeHead + 1) }
        (unpackIndex s.list.freeHead)) rest := by
  have proper := sound.proper t _ next seen exchanging
  obtain ⟨rest, rfl, later⟩ := sound.threads.cons_of_ne proper
  refine ⟨rest, rfl, ?_, ?_, ?_, ?_, ?_⟩
  · show Threaded s.list.next kInvalidIndex (unpackIndex (pack next _)) rest
    rw [unpackIndex_pack, ← successor]
    exact later
  · show unpackTag (pack next _) = .ofNat (s.swaps + 1)
    rw [unpackTag_pack, sound.tag, UInt32.ofNat_add]
    rfl
  · have carries : s.releasing t = none := by rw [System.releasing, exchanging]; rfl
    exact placed_same rfl carries sound.placed.take
  · exact frames_finish sound.frames rfl fun r before => before.transfer (Nat.le_succ _)
      (fun same => absurd same (Nat.succ_ne_self _)) (fun _ _ => rfl) fun _ _ => rfl
  · exact sound.legal.popped

/-- A releasing thread exchanges the head: its index goes on top. -/
theorem Sound.put (sound : Sound bufferCount s free) (small : bufferCount < 2 ^ 32)
    (inside : s.threads t = some r)
    (frame : r.frame = .release index (.exchange s.list.freeHead)) :
    Sound bufferCount (s.put t
      { s.list with freeHead := pack index (unpackTag s.list.freeHead + 1) } index)
      (index :: free) := by
  have carries : s.releasing t = some index := by
    rw [System.releasing, inside, Option.bind_some, frame]
    rfl
  have linked := sound.frames t r inside
  simp only [FrameSound, frame] at linked
  have proper : index ≠ kInvalidIndex := by
    rintro rfl
    have inRange := (sound.placed.covers _).mpr (.inr ⟨t, carries⟩)
    simp only [kInvalidIndex, UInt32.reduceToNat] at inRange
    omega
  refine ⟨?_, ?_, ?_, ?_, ?_⟩
  · show Threaded s.list.next kInvalidIndex (unpackIndex (pack index _)) (index :: free)
    rw [unpackIndex_pack]
    refine ⟨rfl, proper, ?_⟩
    rw [linked]
    exact sound.threads
  · show unpackTag (pack index _) = .ofNat (s.swaps + 1)
    rw [unpackTag_pack, sound.tag, UInt32.ofNat_add]
    rfl
  · exact placed_update rfl (sound.placed.put carries)
  · exact frames_finish sound.frames rfl fun r before => before.transfer (Nat.le_succ _)
      (fun same => absurd same (Nat.succ_ne_self _)) (fun _ _ => rfl) fun _ _ => rfl
  · exact sound.legal.pushed index

/-- A releasing thread links its index to the head it read. Nobody else has the
index, so nobody relies on its successor. -/
theorem Sound.link (sound : Sound bufferCount s free) (inside : s.threads t = some r)
    (frame : r.frame = .release index (.storeNext head)) :
    Sound bufferCount ({ s with list := { s.list with
      freeNext := Function.update s.list.freeNext index.toNat (unpackIndex head) } }.shift t
        ⟨.release index (.exchange head), s.swaps⟩) free := by
  have carries : s.releasing t = some index := by
    rw [System.releasing, inside, Option.bind_some, frame]
    rfl
  have elsewhere {other : UInt32} (apart : other ≠ index) :
      Function.update s.list.freeNext index.toNat (unpackIndex head) other.toNat =
        s.list.next other :=
    Function.update_of_ne (fun same => apart (UInt32.toNat_inj.mp same)) _ _
  have onList {other : UInt32} (member : other ∈ free) : other ≠ index := by
    rintro rfl
    exact sound.placed.apart t other carries (List.mem_append_left _ member)
  refine ⟨?_, sound.tag, ?_, ?_, sound.legal⟩
  · exact sound.threads.congr fun other member => elsewhere (onList member)
  · exact placed_same rfl carries sound.placed
  · intro t' r' inside'
    by_cases mine : t' = t
    · subst mine
      simp only [System.shift, Function.update_self] at inside'
      cases inside'
      exact Function.update_self ..
    · simp only [System.shift, Function.update_of_ne mine] at inside'
      refine (sound.frames t' r' inside').transfer le_rfl (fun _ => rfl) (fun _ more => ?_)
        fun other theirs => ?_
      · obtain ⟨rest, rfl, -⟩ := sound.threads.cons_of_ne more
        exact elsewhere (onList (List.mem_cons_self ..))
      · refine elsewhere fun same => mine (sound.placed.distinct t' t index ?_ carries)
        rw [System.releasing, inside', Option.bind_some, theirs, same]

/-! ## When a successor read earlier is the head's -/

omit [DecidableEq Thread] in
/-- A head word that equals a snapshot is the snapshot's own, unless the tag has
come around in between. -/
theorem Sound.snapshot_current (sound : Sound bufferCount s free)
    (snapshot : Snapshot bufferCount s s.list.freeHead seen)
    (unwrapped : seen < s.swaps → (s.swaps - seen) % 2 ^ 32 ≠ 0) : seen = s.swaps := by
  have past := snapshot.past
  have tags := congrArg UInt32.toNat (snapshot.tag.symm.trans sound.tag)
  simp only [UInt32.toNat_ofNat'] at tags
  by_contra moved
  have wrapped := unwrapped (by omega)
  omega

/-- The locals of a thread in a pool of one lead nowhere but to the end. -/
def Frame.AtEnd : Frame → Prop
  | .acquire (.exchange _ next) => next = kInvalidIndex
  | .release _ (.storeNext head) => unpackIndex head = kInvalidIndex
  | _ => True

/-- In a pool of one the only successor there ever is ends the list. -/
structure Lone (s : System Thread) : Prop where
  last : s.list.freeNext 0 = kInvalidIndex
  frames : ∀ t r, s.threads t = some r → r.frame.AtEnd

theorem Lone.update {x : Option Running} (lone : Lone s)
    (threads : s'.threads = Function.update s.threads t x)
    (last : s'.list.freeNext 0 = kInvalidIndex) (frame : ∀ r ∈ x, r.frame.AtEnd) : Lone s' := by
  refine ⟨last, fun t' r inside => ?_⟩
  rw [threads] at inside
  by_cases mine : t' = t
  · subst mine
    rw [Function.update_self] at inside
    exact frame r inside
  · rw [Function.update_of_ne mine] at inside
    exact lone.frames t' r inside

omit [DecidableEq Thread] in
/-- While the only index is on its way back, the list is empty. -/
theorem Sound.ended_of_releasing (sound : Sound 1 s free) (carries : s.releasing t = some index) :
    unpackIndex s.list.freeHead = kInvalidIndex := by
  by_contra more
  obtain ⟨rest, rfl, -⟩ := sound.threads.cons_of_ne more
  have first := (sound.placed.covers _).mpr (.inl (List.mem_cons_self ..))
  have only := (sound.placed.covers index).mpr (.inr ⟨t, carries⟩)
  have same : index = unpackIndex s.list.freeHead := UInt32.toNat_inj.mp (by omega)
  exact sound.placed.apart t index carries (same ▸ List.mem_cons_self ..)

theorem step_lone {command : Command Thread} (sound : Sound 1 s free) (lone : Lone s)
    (moved : Moved s command s') : Lone s' := by
  cases moved with
  | acquire | release | look =>
    refine lone.update rfl lone.last ?_
    rintro _ ⟨⟩
    trivial
  | empty | take | put => exact lone.update rfl lone.last nofun
  | @follow t r head spurious inside frame =>
    refine lone.update rfl lone.last ?_
    rintro _ ⟨⟩
    have snapshot := sound.frames t r inside
    simp only [FrameSound, frame] at snapshot
    have zero : (unpackIndex head).toNat = 0 := Nat.lt_one_iff.mp snapshot.inRange
    show s.list.freeNext (unpackIndex head).toNat = kInvalidIndex
    rw [zero, lone.last]
  | @ready t r index point spurious inside frame =>
    refine lone.update rfl lone.last ?_
    rintro _ ⟨⟩
    have carries : s.releasing t = some index := by
      rw [System.releasing, inside, Option.bind_some, frame]
      rfl
    exact sound.ended_of_releasing carries
  | @link t r index head spurious inside frame =>
    have ended := lone.frames t r inside
    rw [frame] at ended
    refine lone.update rfl ?_ ?_
    · show Function.update s.list.freeNext index.toNat (unpackIndex head) 0 = kInvalidIndex
      by_cases zero : 0 = index.toNat
      · rw [← zero, Function.update_self]
        exact ended
      · rw [Function.update_of_ne zero]
        exact lone.last
    · rintro _ ⟨⟩
      trivial

omit [DecidableEq Thread] in
/-- An exchange that finds the word it expects finds the successor it read, unless
the tag has come around and there is more than one buffer. -/
theorem Sound.successor (sound : Sound bufferCount s free) (lone : bufferCount = 1 → Lone s)
    (exchanging : Exchanging s t s.list.freeHead next seen)
    (unwrapped : 1 < bufferCount → seen < s.swaps → (s.swaps - seen) % 2 ^ 32 ≠ 0) :
    s.list.next (unpackIndex s.list.freeHead) = next := by
  obtain ⟨snapshot, followed⟩ := sound.frames t _ exchanging
  have inRange := snapshot.inRange
  rcases Nat.lt_or_ge 1 bufferCount with several | few
  · exact followed (sound.snapshot_current snapshot (unwrapped several))
  · have lone := lone (by omega)
    have zero : (unpackIndex s.list.freeHead).toNat = 0 := by omega
    have atEnd : next = kInvalidIndex := lone.frames t _ exchanging
    rw [FreeList.next, zero, lone.last, atEnd]

/-! ## Every step and every run -/

/-- Every step that does not exchange the head a whole turn of the tag late keeps
the free list a stack. -/
theorem step_sound {command : Command Thread} (small : bufferCount < 2 ^ 32)
    (sound : Sound bufferCount s free) (lone : bufferCount = 1 → Lone s)
    (stepped : s.next command = some s') (unwrapped : noWrap bufferCount s command s') :
    ∃ free', Sound bufferCount s' free' := by
  have carries {t : Thread} {r : Running} (inside : s.threads t = some r) :
      s.releasing t = r.frame.carries := by
    rw [System.releasing, inside, Option.bind_some]
  cases moved_of_next sound.proper stepped with
  | acquire idle => exact ⟨free, sound.shift (by rw [System.releasing, idle]; rfl) trivial⟩
  | release idle owned => exact ⟨free, sound.withdraw idle owned⟩
  | look inside frame more =>
    refine ⟨free, sound.shift (by rw [carries inside, frame]; rfl) ⟨le_rfl, sound.tag, more, ?_,
      fun _ => rfl⟩⟩
    obtain ⟨rest, rfl, -⟩ := sound.threads.cons_of_ne more
    exact (sound.placed.covers _).mpr (.inl (List.mem_cons_self ..))
  | empty inside frame reads ended =>
    exact ⟨free, (sound.empty (by rw [carries inside, frame]; rfl) ended).2⟩
  | @follow t r head spurious inside frame =>
    have snapshot := sound.frames t r inside
    simp only [FrameSound, frame] at snapshot
    exact ⟨free, sound.shift (by rw [carries inside, frame]; rfl) ⟨snapshot, fun _ => rfl⟩⟩
  | @take t seen next exchanging proper =>
    have successor := sound.successor lone exchanging fun several =>
      unwrapped t next seen several rfl exchanging
    obtain ⟨rest, -, after⟩ := sound.take exchanging successor
    exact ⟨rest, after⟩
  | ready inside frame => exact ⟨free, sound.shift (by rw [carries inside, frame]; rfl) trivial⟩
  | link inside frame => exact ⟨free, sound.link inside frame⟩
  | put inside frame => exact ⟨_, sound.put small inside frame⟩

theorem start_sound (positive : 0 < bufferCount) (small : bufferCount < 2 ^ 32) :
    Sound bufferCount (machine Thread bufferCount).start (FreeList.initial bufferCount) where
  threads := FreeList.new_threads positive small
  tag := unpackTag_pack _ _
  placed := by
    refine ⟨?_, nofun, nofun, fun index => ?_⟩
    · rw [machine, List.append_nil]
      exact FreeList.initial_nodup small.le
    · simp only [machine, List.append_nil, FreeList.mem_initial]
      exact ⟨.inl, fun known => known.resolve_right nofun⟩
  frames _ _ inside := by cases inside
  legal := rfl

/-- Every run without such an exchange leaves the free list a stack. -/
theorem run_sound (positive : 0 < bufferCount) (small : bufferCount < 2 ^ 32)
    (reached : (machine Thread bufferCount).Reachable (noWrap bufferCount) s) :
    ∃ free, Sound bufferCount s free ∧ (bufferCount = 1 → Lone s) := by
  refine reached.invariant
    (P := fun x => ∃ free, Sound bufferCount x free ∧ (bufferCount = 1 → Lone x))
    ⟨_, start_sound positive small, fun _ => ⟨rfl, nofun⟩⟩ ?_
  rintro _ _ _ ⟨free, sound, lone⟩ stepped unwrapped
  obtain ⟨free', after⟩ := step_sound small sound lone stepped unwrapped
  refine ⟨free', after, ?_⟩
  rintro rfl
  exact step_lone sound (lone rfl) (moved_of_next sound.proper stepped)

end Ringio.FreeListSystem
