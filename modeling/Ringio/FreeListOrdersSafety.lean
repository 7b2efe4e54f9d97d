import Ringio.FreeListOrders

/-! What makes the free list safe under weak memory. Every write of the head passes
on what it found, so the last one holds everything about the buffers on the list:
their successors and all that was done to them. A thread that acts on the last head
with an acquire load behind it knows as much. -/
namespace Ringio.FreeListOrders
open ReleaseAcquire LinkedStack FreeListSystem

variable {Thread B : Type} {m m' : Memory Location UInt32 UInt64 B}
  {view view' : View Location UInt32} {index : UInt32}

/-- The orders the list needs: `acquire` must load the head with acquire, and
`release` must exchange it with release. -/
structure Orders.Sufficient (orders : Orders) : Prop where
  firstLoad : orders.firstLoad = .acquire
  failedExchange : orders.failedExchange = .acquire
  put : orders.put.2 = .release

/-- The successor of an index by the last write of its element. -/
def nextOf (m : Memory Location UInt32 UInt64 B) (index : UInt32) : UInt32 :=
  ((m.latest (.freeNext index)).getD 0).toUInt32

/-- This view holds the last successor of an index and every access to its buffer. -/
structure Fresh (m : Memory Location UInt32 UInt64 B) (view : View Location UInt32)
    (index : UInt32) : Prop where
  next : view (.inl (.freeNext index)) + 1 = (m.writes (.freeNext index)).length
  buffer : view (.inr index) = m.accesses index

/-- A call of `acquire` has loaded this head, the write with this number, and what
it passes on. -/
structure Snapshot (s : System Thread B) (t : Thread) (head : UInt64) (seen : ℕ) : Prop where
  proper : unpackIndex head ≠ kInvalidIndex
  write : ∃ write, (s.memory.writes .freeHead)[seen]? = some write ∧ write.value = head ∧
    write.view ≤ s.views t

/-- What a call's locals and its thread's view hold. -/
def FrameSound (s : System Thread B) (t : Thread) (r : Running) : Prop :=
  match r.frame with
  | .acquire .loadHead => True
  | .acquire (.loadNext head) => Snapshot s t head r.seen
  | .acquire (.exchange head next) => Snapshot s t head r.seen ∧
    (s.swaps = r.seen → next = nextOf s.memory (unpackIndex head))
  | .release index .loadHead => index ∈ s.held t
  | .release index (.storeNext _) => index ∈ s.held t
  | .release index (.exchange head) => index ∈ s.held t ∧
    nextOf s.memory index = unpackIndex head

/-- The last head starts the list of free buffers and holds everything about them. -/
structure Topped (m : Memory Location UInt32 UInt64 B) (free : List UInt32)
    (top : Write Location UInt32 UInt64) : Prop where
  last : (m.writes .freeHead).getLast? = some top
  threaded : Threaded (nextOf m) kInvalidIndex (unpackIndex top.value) free
  fresh : ∀ index ∈ free, Fresh m top.view index

/-- Every buffer is on the list or with one holder. -/
structure Shared (bufferCount : ℕ) (free : List UInt32) (held : Thread → Finset UInt32) : Prop where
  nodup : free.Nodup
  unheld : ∀ {t index}, index ∈ free → index ∉ held t
  apart : ∀ {t t' index}, index ∈ held t → index ∈ held t' → t = t'
  covers : ∀ index : UInt32, index.toNat < bufferCount ↔ index ∈ free ∨ ∃ t, index ∈ held t

structure Sound (bufferCount : ℕ) (s : System Thread B) (free : List UInt32) : Prop where
  clean : s.memory.faults = []
  consistent : Consistent s.memory
  known : ∀ t, Known s.memory (s.views t)
  tags : ∀ {k} {write : Write Location UInt32 UInt64},
    (s.memory.writes .freeHead)[k]? = some write → unpackTag write.value = .ofNat k
  topped : ∃ top, Topped s.memory free top
  shared : Shared bufferCount free s.held
  holders : ∀ {t index}, index ∈ s.held t → Fresh s.memory (s.views t) index
  frames : ∀ {t r}, s.threads t = some r → FrameSound s t r
  legal : Legal (FreeList.initial bufferCount) s.log free

/-! ## Views and lists -/

theorem Fresh.mono (fresh : Fresh m view index) (more : view ≤ view') (known : Known m view') :
    Fresh m view' index where
  next := by
    have least : view (.inl (.freeNext index)) ≤ view' (.inl (.freeNext index)) := more _
    have most := known.writes (.freeNext index)
    have exact_ := fresh.next
    omega
  buffer := by
    refine le_antisymm (known.accesses index) ?_
    rw [← fresh.buffer]
    exact more _

/-- Only the element and the buffer of the index matter. -/
theorem Fresh.congr (fresh : Fresh m view index)
    (writes : m'.writes (.freeNext index) = m.writes (.freeNext index))
    (accesses : m'.accesses index = m.accesses index) : Fresh m' view index :=
  ⟨by rw [writes]; exact fresh.next, by rw [accesses]; exact fresh.buffer⟩

theorem nextOf_congr (writes : m'.writes (.freeNext index) = m.writes (.freeNext index)) :
    nextOf m' index = nextOf m index := by
  unfold nextOf Memory.latest
  rw [writes]

/-- A load by a thread that knows the last successor returns it. -/
theorem Fresh.load (fresh : Fresh m view index) {number : ℕ} {value : UInt64}
    (loaded : m.load view .relaxed (.freeNext index) number = some (value, view')) :
    value.toUInt32 = nextOf m index := by
  obtain ⟨recent, write, found, rfl, _⟩ := Memory.load_eq_some loaded
  obtain ⟨made, _⟩ := List.getElem?_eq_some_iff.mp found
  have last : number = (m.writes (.freeNext index)).length - 1 := by
    have exact_ := fresh.next
    omega
  rw [last, ← List.getLast?_eq_getElem?] at found
  rw [nextOf, Memory.latest, found]
  rfl

variable {bufferCount : ℕ} {free : List UInt32} {s s' : System Thread B} {t t' : Thread}
  {r : Running}

theorem Snapshot.seen_le {head : UInt64} {seen : ℕ} (snapshot : Snapshot s t head seen) :
    seen ≤ s.swaps := by
  obtain ⟨write, found, _⟩ := snapshot.write
  obtain ⟨made, _⟩ := List.getElem?_eq_some_iff.mp found
  exact Nat.le_sub_one_of_lt made

/-- A snapshot of the current head is the top of the list. -/
theorem Snapshot.current {head : UInt64} {seen : ℕ} {top : Write Location UInt32 UInt64}
    (snapshot : Snapshot s t head seen) (topped : Topped s.memory free top)
    (current : s.swaps = seen) :
    top.value = head ∧ top.view ≤ s.views t ∧ ∃ rest, free = unpackIndex head :: rest ∧
      Threaded (nextOf s.memory) kInvalidIndex (nextOf s.memory (unpackIndex head)) rest := by
  obtain ⟨write, found, value, below⟩ := snapshot.write
  have same := topped.last
  rw [List.getLast?_eq_getElem?] at same
  unfold System.swaps at current
  rw [current, found] at same
  cases same
  have threaded := topped.threaded
  rw [value] at threaded
  exact ⟨value, below, threaded.cons_of_ne snapshot.proper⟩

/-- What a call rests on survives other threads' accesses. -/
theorem FrameSound.transfer (sound : FrameSound s t r)
    (heads : s.memory.writes .freeHead <+: s'.memory.writes .freeHead)
    (views : s.views t ≤ s'.views t) (held : s'.held t = s.held t)
    (top : ∀ head next, r.frame = .acquire (.exchange head next) → s.swaps = r.seen →
      nextOf s'.memory (unpackIndex head) = nextOf s.memory (unpackIndex head))
    (mine : ∀ index ∈ s.held t, nextOf s'.memory index = nextOf s.memory index) :
    FrameSound s' t r := by
  obtain ⟨frame, seen⟩ := r
  have snapshot {head : UInt64} (old : Snapshot s t head seen) : Snapshot s' t head seen := by
    obtain ⟨write, found, value, below⟩ := old.write
    obtain ⟨rest, same⟩ := heads
    refine ⟨old.proper, write, ?_, value, below.trans views⟩
    rw [← same, List.getElem?_append_left (List.getElem?_eq_some_iff.mp found).1, found]
  cases frame with
  | acquire point =>
    cases point with
    | loadHead => trivial
    | loadNext head => exact snapshot sound
    | exchange head next =>
      obtain ⟨old, current⟩ := sound
      refine ⟨snapshot old, fun now => ?_⟩
      have grown : s.swaps ≤ s'.swaps := Nat.sub_le_sub_right heads.length_le 1
      have before : s.swaps = seen := le_antisymm (grown.trans now.le) old.seen_le
      rw [top head next rfl before]
      exact current before
  | release index point =>
    cases point with
    | loadHead | storeNext =>
      show index ∈ s'.held t
      rw [held]
      exact sound
    | exchange head =>
      obtain ⟨owned, linked⟩ := sound
      exact ⟨by rw [held]; exact owned, (mine index owned).trans linked⟩

section
variable [DecidableEq Thread] {running : Option Running}

@[simp] theorem move_threads_self : (s.move t m view running).threads t = running :=
  Function.update_self ..

theorem move_threads_other (apart : t' ≠ t) :
    (s.move t m view running).threads t' = s.threads t' := Function.update_of_ne apart _ _

theorem move_inside (inside : (s.move t m view running).threads t' = some r) :
    t' = t ∧ running = some r ∨ t' ≠ t ∧ s.threads t' = some r := by
  by_cases same : t' = t
  · subst same
    exact .inl ⟨rfl, move_threads_self.symm.trans inside⟩
  · exact .inr ⟨same, (move_threads_other same).symm.trans inside⟩

@[simp] theorem move_views_self : (s.move t m view running).views t = view :=
  Function.update_self ..

theorem move_views_other (apart : t' ≠ t) : (s.move t m view running).views t' = s.views t' :=
  Function.update_of_ne apart _ _

/-- Threads only come to know more. -/
theorem le_move_views (more : s.views t ≤ view) (t' : Thread) :
    s.views t' ≤ (s.move t m view running).views t' := by
  by_cases same : t' = t
  · subst same
    rwa [move_views_self]
  · rw [move_views_other same]

theorem known_move (t : Thread) (running : Option Running)
    (known : ∀ t, Known s.memory (s.views t)) (grows : Grows s.memory m) (mine : Known m view)
    (t' : Thread) : Known m ((s.move t m view running).views t') := by
  by_cases same : t' = t
  · subst same
    rwa [move_views_self]
  · rw [move_views_other same]
    exact (known t').mono grows

/-! ## Loads -/

/-- A thread may learn more and change its place in the program. -/
theorem Sound.quiet (sound : Sound bufferCount s free) (more : s.views t ≤ view)
    (known : Known s.memory view)
    (onward : ∀ r, running = some r → FrameSound (s.move t s.memory view running) t r) :
    Sound bufferCount (s.move t s.memory view running) free := by
  have known' := known_move t running sound.known (Grows.refl _) known
  refine ⟨sound.clean, sound.consistent, known', sound.tags, sound.topped, sound.shared,
    fun {t' index} owned => ?_, fun {t' r} inside => ?_, sound.legal⟩
  · exact (sound.holders owned).mono (le_move_views more t') (known' t')
  · rcases move_inside inside with ⟨rfl, now⟩ | ⟨_, before⟩
    · exact onward r now
    · exact (sound.frames before).transfer List.prefix_rfl (le_move_views more t') rfl
        (fun _ _ _ _ => rfl) (fun _ _ => rfl)

/-- An acquire load of the head, and the top of the `acquire` loop. -/
theorem Sound.look (sound : Sound bufferCount s free) {number : ℕ} {head : UInt64}
    (loaded : s.memory.load (s.views t) .acquire .freeHead number = some (head, view)) :
    Sound bufferCount (s.look t number head view) free := by
  have known := (sound.known t).load sound.consistent loaded
  have more := Memory.le_load loaded
  unfold System.look
  split
  · exact sound.quiet more known fun _ none => by cases none
  · rename_i proper
    refine sound.quiet more known fun r now => ?_
    cases now
    obtain ⟨_, write, found, value, rfl⟩ := Memory.load_eq_some loaded
    refine ⟨proper, write, found, value.symm, ?_⟩
    rw [move_views_self]
    exact le_sup_right

/-- The load of the successor. -/
theorem Sound.follow (sound : Sound bufferCount s free) {number seen : ℕ} {head value : UInt64}
    (inside : s.threads t = some ⟨.acquire (.loadNext head), seen⟩)
    (loaded : s.memory.load (s.views t) .relaxed (.freeNext (unpackIndex head)) number =
      some (value, view)) :
    Sound bufferCount
      (s.move t s.memory view (some ⟨.acquire (.exchange head value.toUInt32), seen⟩)) free := by
  have known := (sound.known t).load sound.consistent loaded
  have more := Memory.le_load loaded
  have snapshot : Snapshot s t head seen := sound.frames inside
  refine sound.quiet more known fun r now => ?_
  cases now
  obtain ⟨write, found, same, below⟩ := snapshot.write
  refine ⟨⟨snapshot.proper, write, found, same, ?_⟩, fun current => ?_⟩
  · rw [move_views_self]
    exact below.trans more
  · obtain ⟨top, topped⟩ := sound.topped
    obtain ⟨_, passed, rest, rfl, _⟩ := snapshot.current topped current
    exact ((topped.fresh _ (List.mem_cons_self ..)).mono passed (sound.known t)).load loaded

/-- A relaxed load of the head by `release`. -/
theorem Sound.ready (sound : Sound bufferCount s free) {number : ℕ} {head : UInt64}
    (owned : index ∈ s.held t)
    (loaded : s.memory.load (s.views t) .relaxed .freeHead number = some (head, view)) :
    Sound bufferCount (s.move t s.memory view (some ⟨.release index (.storeNext head), number⟩))
      free := by
  refine sound.quiet (Memory.le_load loaded) ((sound.known t).load sound.consistent loaded)
    fun r now => ?_
  cases now
  exact owned

/-! ## Exchanges of the head -/

omit [DecidableEq Thread] in
theorem Sound.zero_known (sound : Sound bufferCount s free) (t : Thread) :
    Known s.memory fun _ => 0 :=
  (sound.known t).of_le fun _ => Nat.zero_le _

/-- The memory and the view after a successful exchange of the head. -/
structure Swapped (s : System Thread B) (t : Thread) (store : StoreOrder) (value : UInt64)
    (top : Write Location UInt32 UInt64) (m : Memory Location UInt32 UInt64 B)
    (view : View Location UInt32) : Prop where
  memory : ∃ passed, m = s.memory.append .freeHead ⟨value, passed⟩ ∧ top.view ≤ passed ∧
    (store = .release → view ≤ passed) ∧ Known m passed
  more : s.views t ≤ view
  known : Known m view

omit [DecidableEq Thread] in
theorem Sound.exchanged (sound : Sound bufferCount s free) {top : Write Location UInt32 UInt64}
    (topped : Topped s.memory free top) {load : LoadOrder} {store : StoreOrder} {value : UInt64}
    (done : s.memory.exchange (s.views t) load store .freeHead value = some (m, view)) :
    Swapped s t store value top m view := by
  obtain ⟨last, found, viewed, appended⟩ := Memory.exchange_eq_some done
  have same := found.symm.trans topped.last
  cases same
  have member := List.mem_of_getLast? found
  have passed := sound.consistent _ _ member
  have most := (sound.known t).writes .freeHead
  generalize added : view.give store .freeHead (s.memory.writes .freeHead).length = given at appended
  have grows := append_grows s.memory .freeHead ⟨value, top.view ⊔ given⟩
  have known : Known (s.memory.append .freeHead ⟨value, top.view ⊔ given⟩) view := by
    have seen := (sound.known t).append .freeHead ⟨value, top.view ⊔ given⟩
    rw [viewed]
    exact (seen.sup (passed.mono grows)).of_le (View.take_le _ _ _)
  have given' : Known (s.memory.append .freeHead ⟨value, top.view ⊔ given⟩) given := by
    cases store with
    | relaxed => exact ((sound.zero_known t).append _ _).of_le added.symm.le
    | release => exact known.of_le added.symm.le
  rw [appended]
  refine ⟨⟨top.view ⊔ given, rfl, le_sup_left, ?_, (passed.mono grows).sup given'⟩, ?_, known⟩
  · rintro rfl
    rw [← added]
    exact le_sup_right
  · rw [viewed]
    exact (View.le_see most.le).trans (View.le_take _ _ _)

/-- The list after a successful exchange, whoever made it: `first` is the new top,
and a buffer that joins the list comes from the thread's own hands. -/
theorem Sound.swap (sound : Sound bufferCount s free) {top : Write Location UInt32 UInt64}
    {head : UInt64} {first : UInt32} {store : StoreOrder} {free' : List UInt32}
    {held : Thread → Finset UInt32} {event : Event UInt32} (topped : Topped s.memory free top)
    (current : top.value = head)
    (swapped : Swapped s t store (pack first (unpackTag head + 1)) top m view)
    (threaded : Threaded (nextOf s.memory) kInvalidIndex first free')
    (joined : ∀ index ∈ free', index ∈ free ∨ store = .release ∧ index ∈ s.held t)
    (shared : Shared bufferCount free' held)
    (left : ∀ {t' index}, index ∈ held t' →
      index ∈ s.held t' ∨ t' = t ∧ Fresh s.memory (s.views t) index)
    (others : ∀ {t'}, t' ≠ t → held t' = s.held t')
    (legal : Legal (FreeList.initial bufferCount) (s.log ++ [event]) free') :
    Sound bufferCount
      { s.move t m view none with held := held, log := s.log ++ [event] } free' := by
  obtain ⟨passed, appended, above, released, passedKnown⟩ := swapped.memory
  have grows : Grows s.memory m := by
    rw [appended]
    exact append_grows ..
  have known' := known_move t none sound.known grows swapped.known
  have more (t' : Thread) : s.views t' ≤ (s.move t m view none).views t' :=
    le_move_views swapped.more t'
  have element (index : UInt32) : m.writes (.freeNext index) = s.memory.writes (.freeNext index) := by
    rw [appended]
    exact Memory.append_other _ _ fun same => by cases same
  have successors (index : UInt32) : nextOf m index = nextOf s.memory index :=
    nextOf_congr (element index)
  have kept {index : UInt32} {view : View Location UInt32} (fresh : Fresh s.memory view index) :
      Fresh m view index :=
    fresh.congr (element index) (by rw [appended]; rfl)
  refine ⟨?_, ?_, known', fun {k write} found => ?_,
    ⟨⟨pack first (unpackTag head + 1), passed⟩, ⟨?_, ?_, fun index member => ?_⟩⟩, shared,
    fun {t' index} owned => ?_, fun {t' r} inside => ?_, legal⟩
  · show m.faults = []
    rw [appended]
    exact sound.clean
  · show Consistent m
    rw [appended] at passedKnown ⊢
    exact sound.consistent.append passedKnown
  · change (m.writes .freeHead)[k]? = some write at found
    rw [appended] at found
    rcases Memory.append_getElem? found with before | ⟨_, rfl, rfl⟩
    · exact sound.tags before
    · have last := topped.last
      rw [List.getLast?_eq_getElem?] at last
      have positive := (List.getElem?_eq_some_iff.mp last).1
      have tag := sound.tags last
      rw [current] at tag
      rw [unpackTag_pack, tag, ← UInt32.ofNat_one, ← UInt32.ofNat_add]
      exact congrArg _ (by omega)
  · show (m.writes .freeHead).getLast? = _
    rw [appended, Memory.append_self, List.getLast?_concat]
  · rw [unpackIndex_pack]
    exact threaded.congr fun index _ => successors index
  · rcases joined index member with before | ⟨rfl, mine⟩
    · exact (kept (topped.fresh index before)).mono above passedKnown
    · exact (kept (sound.holders mine)).mono (swapped.more.trans (released rfl)) passedKnown
  · rcases left owned with before | ⟨rfl, fresh⟩
    · exact (kept (sound.holders before)).mono (more t') (known' t')
    · exact (kept fresh).mono (more t') (known' t')
  · have inside' : (s.move t m view none).threads t' = some r := inside
    rcases move_inside inside' with ⟨_, now⟩ | ⟨apart, before⟩
    · cases now
    · exact (sound.frames before).transfer (grows.writes _) (more t') (others apart)
        (fun _ _ _ _ => successors _) (fun index _ => successors index)

/-! ## Who has which buffer -/

section
variable {held : Thread → Finset UInt32} {other : UInt32}

theorem mem_gain :
    other ∈ Function.update held t (insert index (held t)) t' ↔
      other ∈ held t' ∨ t' = t ∧ other = index := by
  by_cases same : t' = t
  · subst same
    simp [or_comm]
  · simp [same]

theorem mem_lose :
    other ∈ Function.update held t ((held t).erase index) t' ↔
      other ∈ held t' ∧ ¬ (t' = t ∧ other = index) := by
  by_cases same : t' = t
  · subst same
    simp [and_comm]
  · simp [same]

/-- The first buffer of the list goes to a thread. -/
theorem Shared.gain (shared : Shared bufferCount (index :: free) held) :
    Shared bufferCount free (Function.update held t (insert index (held t))) := by
  obtain ⟨fresh, nodup⟩ := List.nodup_cons.mp shared.nodup
  have nobody (t' : Thread) : index ∉ held t' := shared.unheld (List.mem_cons_self ..)
  refine ⟨nodup, fun {t' other} member => ?_, fun {t' t'' other} mine yours => ?_, fun other => ?_⟩
  · rw [mem_gain]
    rintro (before | ⟨rfl, rfl⟩)
    · exact shared.unheld (List.mem_cons_of_mem _ member) before
    · exact fresh member
  · rcases mem_gain.mp mine with before | ⟨rfl, rfl⟩ <;>
      rcases mem_gain.mp yours with before' | ⟨rfl, same⟩
    · exact shared.apart before before'
    · exact (nobody _ (same ▸ before)).elim
    · exact (nobody _ before').elim
    · rfl
  · rw [shared.covers other, List.mem_cons]
    constructor
    · rintro ((rfl | listed) | ⟨t', before⟩)
      · exact .inr ⟨t, mem_gain.mpr (.inr ⟨rfl, rfl⟩)⟩
      · exact .inl listed
      · exact .inr ⟨t', mem_gain.mpr (.inl before)⟩
    · rintro (listed | ⟨t', now⟩)
      · exact .inl (.inr listed)
      · rcases mem_gain.mp now with before | ⟨_, same⟩
        · exact .inr ⟨t', before⟩
        · exact .inl (.inl same)

/-- A thread's buffer goes on the list. -/
theorem Shared.lose (shared : Shared bufferCount free held) (owned : index ∈ held t) :
    Shared bufferCount (index :: free) (Function.update held t ((held t).erase index)) := by
  refine ⟨List.nodup_cons.mpr ⟨fun listed => shared.unheld listed owned, shared.nodup⟩,
    fun {t' other} member => ?_, fun {t' t'' other} mine yours => ?_, fun other => ?_⟩
  · rw [mem_lose]
    rintro ⟨before, kept⟩
    rcases List.mem_cons.mp member with rfl | listed
    · exact kept ⟨shared.apart before owned, rfl⟩
    · exact shared.unheld listed before
  · exact shared.apart (mem_lose.mp mine).1 (mem_lose.mp yours).1
  · rw [shared.covers other, List.mem_cons]
    constructor
    · rintro (listed | ⟨t', before⟩)
      · exact .inl (.inr listed)
      · by_cases gone : t' = t ∧ other = index
        · exact .inl (.inl gone.2)
        · exact .inr ⟨t', mem_lose.mpr ⟨before, gone⟩⟩
    · rintro ((rfl | listed) | ⟨t', now⟩)
      · exact .inr ⟨t, owned⟩
      · exact .inl listed
      · exact .inr ⟨t', (mem_lose.mp now).1⟩

end

/-- An exchange by `acquire` that finds its head there, fewer than `2 ^ 32`
exchanges after it loaded it: the head never left, and the first buffer is taken
with its true successor. -/
theorem Sound.take (sound : Sound bufferCount s free) {head : UInt64} {next : UInt32} {seen : ℕ}
    {load : LoadOrder} {store : StoreOrder}
    (inside : s.threads t = some ⟨.acquire (.exchange head next), seen⟩)
    (recent : s.swaps < seen + 2 ^ 32) (there : s.memory.latest .freeHead = some head)
    (done : s.memory.exchange (s.views t) load store .freeHead (pack next (unpackTag head + 1)) =
      some (m, view)) :
    ∃ rest, Sound bufferCount
      { s.move t m view none with
        held := Function.update s.held t (insert (unpackIndex head) (s.held t))
        log := s.log ++ [.popped (some (unpackIndex head))] } rest := by
  obtain ⟨snapshot, successor⟩ : Snapshot s t head seen ∧ _ := sound.frames inside
  obtain ⟨top, topped⟩ := sound.topped
  have value : top.value = head := by
    rw [Memory.latest, topped.last] at there
    exact Option.some.inj there
  have current : s.swaps = seen := by
    obtain ⟨write, found, rfl, _⟩ := snapshot.write
    have last := topped.last
    rw [List.getLast?_eq_getElem?] at last
    have tags := (sound.tags last).symm.trans ((congrArg unpackTag value).trans (sound.tags found))
    have same := congrArg UInt32.toNat tags
    rw [UInt32.toNat_ofNat', UInt32.toNat_ofNat'] at same
    have least := snapshot.seen_le
    unfold System.swaps at recent least ⊢
    omega
  obtain ⟨_, passed, rest, rfl, later⟩ := snapshot.current topped current
  refine ⟨rest, sound.swap topped value (sound.exchanged topped done) ?_ ?_ sound.shared.gain ?_ ?_
    sound.legal.popped⟩
  · rw [successor current]
    exact later
  · intro index member
    exact .inl (List.mem_cons_of_mem _ member)
  · intro t' index owned
    rcases mem_gain.mp owned with before | ⟨rfl, rfl⟩
    · exact .inl before
    · exact .inr ⟨rfl, (topped.fresh _ (List.mem_cons_self ..)).mono passed (sound.known _)⟩
  · intro t' apart
    exact Function.update_of_ne apart _ _

/-- An exchange by `release`: the buffer goes on top with everything its last
holder did to it. -/
theorem Sound.put (sound : Sound bufferCount s free) (small : bufferCount < 2 ^ 32)
    {head : UInt64} {load : LoadOrder} {seen : ℕ}
    (inside : s.threads t = some ⟨.release index (.exchange head), seen⟩)
    (there : s.memory.latest .freeHead = some head)
    (done : s.memory.exchange (s.views t) load .release .freeHead
      (pack index (unpackTag head + 1)) = some (m, view)) :
    Sound bufferCount
      { s.move t m view none with
        held := Function.update s.held t ((s.held t).erase index)
        log := s.log ++ [.pushed index] } (index :: free) := by
  obtain ⟨owned, linked⟩ : index ∈ s.held t ∧ nextOf s.memory index = unpackIndex head :=
    sound.frames inside
  obtain ⟨top, topped⟩ := sound.topped
  have value : top.value = head := by
    rw [Memory.latest, topped.last] at there
    exact Option.some.inj there
  have proper : index ≠ kInvalidIndex := by
    rintro rfl
    have inRange := (sound.shared.covers _).mpr (.inr ⟨t, owned⟩)
    simp only [kInvalidIndex, UInt32.reduceToNat] at inRange
    omega
  refine sound.swap topped value (sound.exchanged topped done) ⟨rfl, proper, ?_⟩ ?_
    (sound.shared.lose owned) ?_ ?_ (sound.legal.pushed index)
  · rw [linked, ← value]
    exact topped.threaded
  · intro other member
    rcases List.mem_cons.mp member with rfl | listed
    · exact .inr ⟨rfl, owned⟩
    · exact .inl listed
  · intro t' other now
    exact .inl (mem_lose.mp now).1
  · intro t' apart
    exact Function.update_of_ne apart _ _

/-! ## What a holder does with its buffer -/

/-- Only the holder of a buffer relies on its element and its contents. -/
theorem Sound.touch (sound : Sound bufferCount s free) (owned : index ∈ s.held t)
    (grows : Grows s.memory m) (clean : m.faults = []) (consistent : Consistent m)
    (known : Known m view) (more : s.views t ≤ view) (fresh : Fresh m view index)
    (heads : m.writes .freeHead = s.memory.writes .freeHead)
    (elements : ∀ other, other ≠ index → m.writes (.freeNext other) =
      s.memory.writes (.freeNext other) ∧ m.accesses other = s.memory.accesses other)
    (onward : ∀ r, running = some r → FrameSound (s.move t m view running) t r) :
    Sound bufferCount (s.move t m view running) free := by
  have known' := known_move t running sound.known grows known
  obtain ⟨top, topped⟩ := sound.topped
  have listed {other : UInt32} (member : other ∈ free) : other ≠ index := by
    rintro rfl
    exact sound.shared.unheld member owned
  refine ⟨clean, consistent, known', fun {k write} found => sound.tags (heads ▸ found),
    ⟨top, (congrArg _ heads).trans topped.last, ?_, fun other member => ?_⟩, sound.shared,
    fun {t' other} mine => ?_, fun {t' r} inside => ?_, sound.legal⟩
  · exact topped.threaded.congr fun other member => nextOf_congr (elements other (listed member)).1
  · obtain ⟨writes, accesses⟩ := elements other (listed member)
    exact (topped.fresh other member).congr writes accesses
  · by_cases same : other = index
    · subst same
      rw [sound.shared.apart mine owned, move_views_self]
      exact fresh
    · obtain ⟨writes, accesses⟩ := elements other same
      exact ((sound.holders mine).congr writes accesses).mono (le_move_views more t') (known' t')
  · rcases move_inside inside with ⟨rfl, now⟩ | ⟨apart, before⟩
    · exact onward r now
    · refine (sound.frames before).transfer (grows.writes _) (le_move_views more t') rfl
        (fun head next acting current => ?_) (fun other mine => ?_)
      · obtain ⟨frame, seen⟩ := r
        cases acting
        obtain ⟨snapshot, _⟩ : Snapshot s t' head seen ∧ _ := sound.frames before
        obtain ⟨_, _, rest, rfl, _⟩ := snapshot.current topped current
        exact nextOf_congr (elements _ (listed (List.mem_cons_self ..))).1
      · refine nextOf_congr (elements other ?_).1
        rintro rfl
        exact apart (sound.shared.apart mine owned)

/-- `release` links the buffer to the head it has loaded. -/
theorem Sound.link (sound : Sound bufferCount s free) {head : UInt64} {seen : ℕ}
    (inside : s.threads t = some ⟨.release index (.storeNext head), seen⟩)
    (done : s.memory.store (s.views t) .relaxed (.freeNext index) (unpackIndex head).toUInt64 =
      (m, view)) :
    Sound bufferCount (s.move t m view (some ⟨.release index (.exchange head), 0⟩)) free := by
  have owned : index ∈ s.held t := sound.frames inside
  have fresh := sound.holders owned
  rw [Memory.store_settled _ _ fresh.next] at done
  cases done
  have known := (sound.known t).append (.freeNext index)
    ⟨(unpackIndex head).toUInt64, View.give ((s.views t).see (.freeNext index)
      (s.memory.writes (.freeNext index)).length) .relaxed (.freeNext index)
      (s.memory.writes (.freeNext index)).length⟩
  have most := (sound.known t).writes (.freeNext index)
  refine sound.touch owned (append_grows ..) sound.clean (sound.consistent.append ?_) known
    (View.le_see most.le) ⟨by simp, ?_⟩ (Memory.append_other _ _ fun same => by cases same)
    (fun other apart => ⟨Memory.append_other _ _ fun same => ?_, rfl⟩) fun r now => ?_
  · exact (sound.zero_known t).append _ _
  · rw [View.see_cell]
    exact fresh.buffer
  · cases same
    exact apart rfl
  · cases now
    refine ⟨owned, ?_⟩
    simp [nextOf, Memory.latest, System.move]

/-- A holder writes to its buffer. -/
theorem Sound.fill (sound : Sound bufferCount s free) {value : B}
    (owned : index ∈ s.held t) (done : s.memory.write (s.views t) index value = (m, view)) :
    Sound bufferCount (s.move t m view none) free := by
  have fresh := sound.holders owned
  rw [Memory.write_ordered _ fresh.buffer] at done
  cases done
  have grows := access_grows s.memory index (Function.update s.memory.contents index value)
  refine sound.touch owned grows sound.clean (sound.consistent.grow grows rfl)
    ((sound.known t).access index _) ((sound.known t).le_access index) ⟨?_, ?_⟩ rfl
    (fun other apart => ⟨rfl, Function.update_of_ne apart _ _⟩) fun r now => by cases now
  · rw [Function.update_of_ne fun same => by cases same]
    exact fresh.next
  · simp

/-- A buffer and what is known about it go to another thread. -/
theorem Sound.pass (sound : Sound bufferCount s free) (idle : s.threads t = none)
    (idle' : s.threads t' = none) (apart : t' ≠ t) (owned : index ∈ s.held t) :
    Sound bufferCount
      { s with
        views := Function.update s.views t' (s.views t' ⊔ s.views t)
        held := Function.update (Function.update s.held t ((s.held t).erase index)) t'
          (insert index (s.held t')) } free := by
  have known (t'' : Thread) : Known s.memory
      (Function.update s.views t' (s.views t' ⊔ s.views t) t'') := by
    by_cases same : t'' = t'
    · subst same
      rw [Function.update_self]
      exact (sound.known t'').sup (sound.known t)
    · rw [Function.update_of_ne same]
      exact sound.known t''
  have more (t'' : Thread) : s.views t'' ≤
      Function.update s.views t' (s.views t' ⊔ s.views t) t'' := by
    by_cases same : t'' = t'
    · subst same
      rw [Function.update_self]
      exact le_sup_left
    · rw [Function.update_of_ne same]
  have kept : s.held t' = Function.update s.held t ((s.held t).erase index) t' :=
    (Function.update_of_ne apart _ _).symm
  rw [kept]
  refine ⟨sound.clean, sound.consistent, known, sound.tags, sound.topped,
    (sound.shared.lose owned).gain, fun {t'' other} mine => ?_, fun {t'' r} inside => ?_,
    sound.legal⟩
  · rcases mem_gain.mp mine with before | ⟨rfl, rfl⟩
    · exact (sound.holders (mem_lose.mp before).1).mono (more t'') (known t'')
    · refine (sound.holders owned).mono ?_ (known t'')
      show s.views t ≤ Function.update s.views t'' (s.views t'' ⊔ s.views t) t''
      rw [Function.update_self]
      exact le_sup_right
  · have others : t'' ≠ t' ∧ t'' ≠ t := by
      constructor <;> rintro rfl
      · exact absurd (idle'.symm.trans inside) (by simp)
      · exact absurd (idle.symm.trans inside) (by simp)
    exact (sound.frames inside).transfer List.prefix_rfl (more t'')
      ((Function.update_of_ne others.1 _ _).trans (Function.update_of_ne others.2 _ _))
      (fun _ _ _ _ => rfl) (fun _ _ => rfl)

end

end Ringio.FreeListOrders
