import Ringio.Machine
import Ringio.SpscRing
import Ringio.SlotHandover

/-! `SpscRing` under the memory orders it is written with. Each thread has its own
view of the two cursors, a load may return an old value, and a slot copy is one
access to a plain cell. The orders of the four operations that cross threads are a
parameter, so what each of them is for can be said. -/
namespace Ringio.SpscOrders
open ReleaseAcquire SlotHandover

/-- `head_` and `tail_`. -/
inductive Location where
  | head
  | tail
  deriving DecidableEq

/-- The orders of the loads and stores by which the threads hear of each other. A
thread's load of its own cursor is relaxed. -/
structure Orders where
  loadHead : LoadOrder
  storeTail : StoreOrder
  loadTail : LoadOrder
  storeHead : StoreOrder
  deriving DecidableEq

/-- The orders of `spsc_ring.hpp`. -/
def Orders.source : Orders where
  loadHead := .acquire
  storeTail := .release
  loadTail := .acquire
  storeHead := .release

/-- The producer between calls or inside `try_push`. -/
inductive Producer (T : Type) where
  | idle
  | loadTail (value : T)
  | loadHead (value : T) (tail : UInt64)
  | write (value : T) (tail : UInt64)
  | storeTail (value : T) (tail : UInt64)

/-- The consumer between calls or inside `try_pop`. -/
inductive Consumer (T : Type) where
  | idle
  | loadHead
  | loadTail (head : UInt64)
  | read (head : UInt64)
  | storeHead (out : T) (head : UInt64)

/-- Both threads with their views. `pushed` and `popped` list the values of the
calls that returned true; no step reads them. -/
structure System (T : Type) (C : Capacity) where
  memory : Memory Location (Fin C.size) UInt64 T
  producer : Producer T
  producerView : View Location (Fin C.size)
  consumer : Consumer T
  consumerView : View Location (Fin C.size)
  pushed : List T
  popped : List T

/-- Whose turn it is, and which write a load returns. -/
inductive Command (T : Type) where
  | callPush (value : T)
  | callPop
  | produce (number : ℕ)
  | consume (number : ℕ)

variable {T : Type} {C : Capacity} {orders : Orders}

namespace System

/-- The producer's next access. -/
def produce (orders : Orders) (s : System T C) (number : ℕ) : Option (System T C) :=
  match s.producer with
  | .idle => none
  | .loadTail value =>
    (s.memory.load s.producerView .relaxed .tail number).map fun loaded =>
      { s with producer := .loadHead value loaded.1, producerView := loaded.2 }
  | .loadHead value tail =>
    (s.memory.load s.producerView orders.loadHead .head number).map fun loaded =>
      { s with
        producer := if SpscRing.full C tail loaded.1 then .idle else .write value tail
        producerView := loaded.2 }
  | .write value tail =>
    let done := s.memory.write s.producerView (C.index tail) value
    some { s with memory := done.1, producer := .storeTail value tail, producerView := done.2 }
  | .storeTail value tail =>
    let done := s.memory.store s.producerView orders.storeTail .tail (tail + 1)
    some { s with
      memory := done.1, producer := .idle, producerView := done.2, pushed := s.pushed ++ [value] }

/-- The consumer's next access. -/
def consume (orders : Orders) (s : System T C) (number : ℕ) : Option (System T C) :=
  match s.consumer with
  | .idle => none
  | .loadHead =>
    (s.memory.load s.consumerView .relaxed .head number).map fun loaded =>
      { s with consumer := .loadTail loaded.1, consumerView := loaded.2 }
  | .loadTail head =>
    (s.memory.load s.consumerView orders.loadTail .tail number).map fun loaded =>
      { s with
        consumer := if head = loaded.1 then .idle else .read head
        consumerView := loaded.2 }
  | .read head =>
    let done := s.memory.access s.consumerView (C.index head)
    some { s with
      memory := done.1
      consumer := .storeHead (s.memory.contents (C.index head)) head
      consumerView := done.2 }
  | .storeHead out head =>
    let done := s.memory.store s.consumerView orders.storeHead .head (head + 1)
    some { s with
      memory := done.1, consumer := .idle, consumerView := done.2, popped := s.popped ++ [out] }

def next (orders : Orders) (s : System T C) : Command T → Option (System T C)
  | .callPush value =>
    match s.producer with
    | .idle => some { s with producer := .loadTail value }
    | _ => none
  | .callPop =>
    match s.consumer with
    | .idle => some { s with consumer := .loadHead }
    | _ => none
  | .produce number => s.produce orders number
  | .consume number => s.consume orders number

end System

/-- A fresh ring that both threads know of, and nobody in a call. -/
def machine (T : Type) [Inhabited T] (C : Capacity) (orders : Orders) :
    Machine (System T C) (Command T) where
  start :=
    { memory := .start (fun _ => 0) (fun _ => default)
      producer := .idle, producerView := fun _ => 0
      consumer := .idle, consumerView := fun _ => 0
      pushed := [], popped := [] }
  next := System.next orders

/-! ## What the views hold -/

/-- Who knows of a cursor knows of the slot accesses it stands for. -/
structure Informed (view : View Location (Fin C.size)) : Prop where
  written : ∀ j < view (.inl .tail), KnowsWritten view j
  taken : ∀ j < view (.inl .head), KnowsTaken view j

/-- The writes of a cursor count up from zero, and each passes on its own number. -/
structure Counted (m : Memory Location (Fin C.size) UInt64 T) (loc : Location) (count : ℕ) :
    Prop where
  length : (m.writes loc).length = count + 1
  write : ∀ {k} {write : Write Location (Fin C.size) UInt64}, (m.writes loc)[k]? = some write →
    write.value = .ofNat k ∧ k ≤ write.view (.inl loc)

/-- What the locals of `try_push` hold once `count` values have been pushed. -/
def Producer.At (view : View Location (Fin C.size)) (count : ℕ) : Producer T → Prop
  | .idle | .loadTail _ => True
  | .loadHead _ tail => tail = .ofNat count
  | .write _ tail => tail = .ofNat count ∧ count < view (.inl .head) + C.size
  | .storeTail _ tail =>
    tail = .ofNat count ∧ count < view (.inl .head) + C.size ∧ KnowsWritten view count

/-- What the locals of `try_pop` hold once `count` values have been popped. -/
def Consumer.At (view : View Location (Fin C.size)) (count : ℕ) (pushed : List T) :
    Consumer T → Prop
  | .idle | .loadHead => True
  | .loadTail head => head = .ofNat count
  | .read head => head = .ofNat count ∧ count < view (.inl .tail)
  | .storeHead out head =>
    head = .ofNat count ∧ count < view (.inl .tail) ∧ KnowsTaken view count ∧
      pushed[count]? = some out

structure ProducerSound (m : Memory Location (Fin C.size) UInt64 T)
    (view : View Location (Fin C.size)) (count : ℕ) (point : Producer T) : Prop where
  known : Known m view
  informed : Informed view
  own : view (.inl .tail) = count
  room : count ≤ view (.inl .head) + C.size
  point : point.At view count

structure ConsumerSound (m : Memory Location (Fin C.size) UInt64 T)
    (view : View Location (Fin C.size)) (count : ℕ) (pushed : List T) (point : Consumer T) :
    Prop where
  known : Known m view
  informed : Informed view
  own : view (.inl .head) = count
  ahead : count ≤ view (.inl .tail)
  point : point.At view count pushed

/-- The value a producer has written and not yet published. -/
def Producer.pending : Producer T → List T
  | .storeTail value _ => [value]
  | _ => []

/-- How many values a consumer has read and not yet retired. -/
def Consumer.pending : Consumer T → ℕ
  | .storeHead _ _ => 1
  | _ => 0

namespace System

/-- The values written so far, by ticket. -/
def wrote (s : System T C) (j : ℕ) : Option T := (s.pushed ++ s.producer.pending)[j]?

/-- The tickets read so far. -/
def took (s : System T C) (j : ℕ) : Prop := j < s.popped.length + s.consumer.pending

end System

/-- The invariant of the ring under its own orders. -/
structure Sound (s : System T C) : Prop where
  clean : s.memory.faults = []
  consistent : Consistent s.memory
  informed : ∀ loc, ∀ write ∈ s.memory.writes loc, Informed write.view
  tails : Counted s.memory .tail s.pushed.length
  heads : Counted s.memory .head s.popped.length
  ledger : Ledger s.memory s.wrote s.took
  queue : s.popped <+: s.pushed
  producer : ProducerSound s.memory s.producerView s.pushed.length s.producer
  consumer : ConsumerSound s.memory s.consumerView s.popped.length s.pushed s.consumer

/-! ## How the views grow -/

section
variable {m m' : Memory Location (Fin C.size) UInt64 T} {view view' : View Location (Fin C.size)}
  {loc other : Location} {count number : ℕ} {value : UInt64}

theorem Informed.sup (mine : Informed view) (theirs : Informed view') : Informed (view ⊔ view') where
  written j below := by
    rcases lt_max_iff.mp below with first | second
    · exact (mine.written j first).mono le_sup_left
    · exact (theirs.written j second).mono le_sup_right
  taken j below := by
    rcases lt_max_iff.mp below with first | second
    · exact (mine.taken j first).mono le_sup_left
    · exact (theirs.taken j second).mono le_sup_right

/-- More knowledge of the slots is no harm. -/
theorem Informed.access (informed : Informed view) (known : Known m view) (cell : Fin C.size) :
    Informed (Function.update view (.inr cell) (m.accesses cell + 1)) where
  written j below := by
    rw [Function.update_of_ne (fun same => by cases same)] at below
    exact (informed.written j below).mono (known.le_access cell)
  taken j below := by
    rw [Function.update_of_ne (fun same => by cases same)] at below
    exact (informed.taken j below).mono (known.le_access cell)

/-- A thread that loads its own cursor gets its last store and learns nothing. -/
theorem Counted.load_own (counted : Counted m loc count) (own : view (.inl loc) = count)
    (loaded : m.load view .relaxed loc number = some (value, view')) :
    value = .ofNat count ∧ view' = view := by
  obtain ⟨recent, write, found, rfl, rfl⟩ := Memory.load_eq_some loaded
  obtain ⟨made, _⟩ := List.getElem?_eq_some_iff.mp found
  have latest : number = count := by
    have length := counted.length
    omega
  subst latest
  exact ⟨(counted.write found).1, View.see_known own⟩

/-- A thread that loads the other cursor with acquire gets the number of a write
and all that write passes on. -/
theorem Counted.load_acquire (counted : Counted m loc count)
    (loaded : m.load view .acquire loc number = some (value, view')) :
    value = .ofNat number ∧ view (.inl loc) ≤ number ∧ number ≤ count ∧
      ∃ write ∈ m.writes loc, view' = view ⊔ write.view ∧ number ≤ write.view (.inl loc) := by
  obtain ⟨recent, write, found, rfl, rfl⟩ := Memory.load_eq_some loaded
  obtain ⟨made, same⟩ := List.getElem?_eq_some_iff.mp found
  obtain ⟨numbered, own⟩ := counted.write found
  have length := counted.length
  refine ⟨numbered, recent, by omega, write, same ▸ List.getElem_mem made, ?_, own⟩
  exact View.see_sup recent own

/-- The next write of a cursor. -/
theorem Counted.append (counted : Counted m loc count) (own : count + 1 ≤ view (.inl loc)) :
    Counted (m.append loc ⟨.ofNat count + 1, view⟩) loc (count + 1) where
  length := by simp [counted.length]
  write found := by
    rcases Memory.append_getElem? found with before | ⟨_, last, rfl⟩
    · exact counted.write before
    · rw [counted.length] at last
      subst last
      exact ⟨Cursor.ofNat_add_one count, own⟩

theorem Counted.append_other (counted : Counted m other count) (apart : other ≠ loc)
    (write : Write Location (Fin C.size) UInt64) : Counted (m.append loc write) other count where
  length := by rw [Memory.append_other _ _ apart, counted.length]
  write found := by
    rw [Memory.append_other _ _ apart] at found
    exact counted.write found

theorem ProducerSound.grow {point : Producer T} (sound : ProducerSound m view count point)
    (grows : Grows m m') : ProducerSound m' view count point :=
  { sound with known := sound.known.mono grows }

theorem ConsumerSound.grow {pushed pushed' : List T} {point : Consumer T}
    (sound : ConsumerSound m view count pushed point) (grows : Grows m m')
    (more : pushed <+: pushed') : ConsumerSound m' view count pushed' point where
  known := sound.known.mono grows
  informed := sound.informed
  own := sound.own
  ahead := sound.ahead
  point := by
    cases point with
    | idle | loadHead => trivial
    | loadTail head => exact sound.point
    | read head => exact sound.point
    | storeHead out head =>
      obtain ⟨own, ahead, taken, found⟩ := sound.point
      obtain ⟨rest, rfl⟩ := more
      obtain ⟨early, _⟩ := List.getElem?_eq_some_iff.mp found
      exact ⟨own, ahead, taken, (List.getElem?_append_left early).trans found⟩

/-- A thread that has pushed one more value knows of its write. -/
theorem Informed.seeTail (informed : Informed view) (own : view (.inl .tail) = count)
    (written : KnowsWritten view count) : Informed (view.see .tail (count + 1)) := by
  have more : view ≤ view.see .tail (count + 1) := View.le_see (by omega)
  refine ⟨fun j below => ?_, fun j below => ?_⟩
  · rw [View.see_self] at below
    rcases Nat.lt_succ_iff_lt_or_eq.mp below with earlier | rfl
    · exact (informed.written j (by omega)).mono more
    · exact written.mono more
  · rw [View.see_other _ _ (by decide)] at below
    exact (informed.taken j below).mono more

theorem Informed.seeHead (informed : Informed view) (own : view (.inl .head) = count)
    (taken : KnowsTaken view count) : Informed (view.see .head (count + 1)) := by
  have more : view ≤ view.see .head (count + 1) := View.le_see (by omega)
  refine ⟨fun j below => ?_, fun j below => ?_⟩
  · rw [View.see_other _ _ (by decide)] at below
    exact (informed.written j below).mono more
  · rw [View.see_self] at below
    rcases Nat.lt_succ_iff_lt_or_eq.mp below with earlier | rfl
    · exact (informed.taken j (by omega)).mono more
    · exact taken.mono more

/-- The producer has written its slot. -/
theorem ProducerSound.written {word : T} {tail : UInt64} {contents : Fin C.size → T}
    (sound : ProducerSound m view count (.write word tail))
    (laps : 2 * (count / C.size) ≤ m.accesses (slot C count)) :
    ProducerSound
      { m with
        accesses := Function.update m.accesses (slot C count) (m.accesses (slot C count) + 1)
        contents := contents }
      (Function.update view (.inr (slot C count)) (m.accesses (slot C count) + 1)) count
      (.storeTail word tail) := by
  have same (loc : Location) : Function.update view (.inr (slot C count))
      (m.accesses (slot C count) + 1) (.inl loc) = view (.inl loc) :=
    Function.update_of_ne (fun equal => by cases equal) _ _
  obtain ⟨atTail, room⟩ := sound.point
  refine ⟨sound.known.access _ _, sound.informed.access sound.known _, (same _).trans sound.own,
    ?_, atTail, ?_, ?_⟩
  · rw [same]
    exact sound.room
  · rwa [same]
  · unfold KnowsWritten
    rw [Function.update_self]
    omega

/-- The producer has published its slot. -/
theorem ProducerSound.published {word : T} {tail : UInt64}
    (sound : ProducerSound m view count (.storeTail word tail)) (tails : Counted m .tail count) :
    ProducerSound (m.append .tail ⟨.ofNat count + 1, view.see .tail (count + 1)⟩)
      (view.see .tail (count + 1)) (count + 1) (.idle : Producer T) := by
  obtain ⟨_, room, written⟩ := sound.point
  have known := sound.known.append .tail
    ⟨.ofNat count + 1, view.see .tail (count + 1)⟩
  rw [tails.length] at known
  refine ⟨known, sound.informed.seeTail sound.own written, View.see_self .., ?_, trivial⟩
  rw [View.see_other _ _ (by decide)]
  omega

/-- The consumer has read its slot. -/
theorem ConsumerSound.taken {pushed : List T} {out : T} {head : UInt64}
    (sound : ConsumerSound m view count pushed (.read head))
    (ordered : view (.inr (slot C count)) = m.accesses (slot C count))
    (found : pushed[count]? = some out) :
    ConsumerSound
      { m with
        accesses := Function.update m.accesses (slot C count) (m.accesses (slot C count) + 1) }
      (Function.update view (.inr (slot C count)) (m.accesses (slot C count) + 1)) count pushed
      (.storeHead out head) := by
  have same (loc : Location) : Function.update view (.inr (slot C count))
      (m.accesses (slot C count) + 1) (.inl loc) = view (.inl loc) :=
    Function.update_of_ne (fun equal => by cases equal) _ _
  obtain ⟨atHead, below⟩ := sound.point
  have knows := sound.informed.written _ below
  refine ⟨sound.known.access _ _, sound.informed.access sound.known _, (same _).trans sound.own,
    ?_, atHead, ?_, ?_, found⟩
  · rw [same]
    exact sound.ahead
  · rwa [same]
  · unfold KnowsWritten at knows
    unfold KnowsTaken
    rw [Function.update_self]
    omega

/-- The consumer has retired its slot. -/
theorem ConsumerSound.retired {pushed : List T} {out : T} {head : UInt64}
    (sound : ConsumerSound m view count pushed (.storeHead out head))
    (heads : Counted m .head count) :
    ConsumerSound (m.append .head ⟨.ofNat count + 1, view.see .head (count + 1)⟩)
      (view.see .head (count + 1)) (count + 1) pushed (.idle : Consumer T) := by
  obtain ⟨_, below, taken, _⟩ := sound.point
  have known := sound.known.append .head
    ⟨.ofNat count + 1, view.see .head (count + 1)⟩
  rw [heads.length] at known
  refine ⟨known, sound.informed.seeHead sound.own taken, View.see_self .., ?_, trivial⟩
  rw [View.see_other _ _ (by decide)]
  omega

/-- Views of the writes stay informed when an informed one is added. -/
theorem informed_append (informed : ∀ loc, ∀ write ∈ m.writes loc, Informed write.view)
    (write : Write Location (Fin C.size) UInt64) (now : Informed write.view) :
    ∀ other, ∀ old ∈ (m.append loc write).writes other, Informed old.view := by
  intro other old member
  by_cases same : other = loc
  · subst same
    rw [Memory.append_self] at member
    rcases List.mem_append.mp member with before | last
    · exact informed other old before
    · rw [List.mem_singleton.mp last]
      exact now
  · rw [Memory.append_other _ _ same] at member
    exact informed other old member

end

/-! ## Every step keeps the invariant -/

variable {s s' : System T C} {number : ℕ}

/-- Loading the other cursor keeps what a thread knows of its own. -/
theorem Sound.load_other (sound : Sound s) {view view' : View Location (Fin C.size)}
    {loc other : Location} {value : UInt64} {count taken : ℕ} (known : Known s.memory view)
    (informed : Informed view) (counted : Counted s.memory loc count)
    (counted' : Counted s.memory other taken) (own : view (.inl loc) = count)
    (loaded : s.memory.load view .acquire other number = some (value, view')) :
    value = .ofNat number ∧ view (.inl other) ≤ number ∧ number ≤ taken ∧
      number ≤ view' (.inl other) ∧ Known s.memory view' ∧ Informed view' ∧
      view' (.inl loc) = count := by
  have known' := known.load sound.consistent loaded
  have more := Memory.le_load loaded
  obtain ⟨numbered, recent, made, write, member, rfl, itself⟩ := counted'.load_acquire loaded
  refine ⟨numbered, recent, made, itself.trans (le_sup_right (a := view) _), known',
    informed.sup (sound.informed _ _ member), ?_⟩
  have most := known'.writes loc
  have least : view (.inl loc) ≤ (view ⊔ write.view) (.inl loc) := more (.inl loc)
  rw [counted.length] at most
  omega

/-- The consumer is never ahead of the producer, nor more than a lap behind. -/
theorem Sound.window (sound : Sound s) :
    s.popped.length ≤ s.pushed.length ∧ s.pushed.length ≤ s.popped.length + C.size := by
  have room := sound.producer.room
  have seen := sound.producer.known.writes .head
  rw [sound.heads.length] at seen
  exact ⟨sound.queue.length_le, by omega⟩

/-- The test of `try_push` on a value of `head_` that may be old. -/
theorem Sound.full_iff (sound : Sound s) (recent : s.producerView (.inl .head) ≤ number)
    (made : number ≤ s.popped.length) :
    SpscRing.full C (.ofNat s.pushed.length) (.ofNat number) = true ↔
      s.pushed.length = number + C.size := by
  have small := C.size_le
  have room := sound.producer.room
  have window := sound.window
  rw [SpscRing.full_iff, Cursor.toNat_sub (by omega) (by omega)]
  omega

/-- The test of `try_pop` on a value of `tail_` that may be old. -/
theorem Sound.empty_iff (sound : Sound s) (recent : s.consumerView (.inl .tail) ≤ number)
    (made : number ≤ s.pushed.length) :
    UInt64.ofNat s.popped.length = .ofNat number ↔ s.popped.length = number := by
  have small := C.size_le
  have ahead := sound.consumer.ahead
  have window := sound.window
  exact Cursor.ofNat_inj (by omega) (by omega)

/-- A value written behind the published ones. -/
theorem wrote_concat (pushed : List T) (value : T) :
    (fun j => (pushed ++ [value])[j]?) =
      Function.update (fun j => (pushed ++ [])[j]?) pushed.length (some value) := by
  rw [List.append_nil]
  funext j
  by_cases last : j = pushed.length
  · subst last
    simp
  · rw [Function.update_of_ne last]
    rcases Nat.lt_or_gt_of_ne last with before | after
    · exact List.getElem?_append_left before
    · simp [List.getElem?_append_right after.le, List.getElem?_eq_none after.le,
        List.getElem?_eq_none (l := [value]) (i := j - pushed.length) (by simp; omega)]

theorem produce_sound (sound : Sound s) (moved : s.produce .source number = some s') :
    Sound s' := by
  obtain ⟨m, point, view, consumer, theirView, pushed, popped⟩ := s
  obtain ⟨clean, consistent, informed, tails, heads, ledger, queue, mine, theirs⟩ := id sound
  dsimp only at clean consistent informed tails heads queue mine theirs
  cases point with
  | idle => cases moved
  | loadTail value =>
    obtain ⟨⟨tail, view'⟩, loaded, rfl⟩ := Option.map_eq_some_iff.mp moved
    obtain ⟨rfl, rfl⟩ := tails.load_own mine.own loaded
    exact ⟨clean, consistent, informed, tails, heads, ledger, queue, { mine with point := rfl },
      theirs⟩
  | loadHead value tail =>
    obtain ⟨⟨head, view'⟩, loaded, rfl⟩ := Option.map_eq_some_iff.mp moved
    obtain ⟨rfl, recent, made, seen, known, informed', own⟩ :=
      sound.load_other mine.known mine.informed tails heads mine.own loaded
    have atTail : tail = .ofNat pushed.length := mine.point
    have room := mine.room
    dsimp only at recent made ⊢
    have near : pushed.length ≤ view' (.inl .head) + C.size := by omega
    subst atTail
    split
    · exact ⟨clean, consistent, informed, tails, heads, ledger, queue,
        ⟨known, informed', own, near, trivial⟩, theirs⟩
    · rename_i notFull
      have apart : pushed.length ≠ number + C.size := fun filled =>
        notFull ((sound.full_iff recent made).mpr filled)
      have below : pushed.length < view' (.inl .head) + C.size := by omega
      exact ⟨clean, consistent, informed, tails, heads, ledger, queue,
        ⟨known, informed', own, near, rfl, below⟩, theirs⟩
  | write value tail =>
    obtain ⟨atTail, room⟩ := mine.point
    have seen := mine.known.writes .head
    rw [heads.length] at seen
    have fresh : (pushed ++ (.write value tail : Producer T).pending)[pushed.length]? = none := by
      simp [Producer.pending]
    obtain ⟨ordered, laps⟩ := ledger.write_ordered mine.known fresh fun lap =>
      mine.informed.taken _ (by omega)
    have slotAt : C.index tail = slot C pushed.length := congrArg C.index atTail
    simp only [System.produce, slotAt, Memory.write_ordered value ordered] at moved
    cases moved
    have grows := access_grows m (slot C pushed.length)
      (Function.update m.contents (slot C pushed.length) value)
    refine ⟨clean, consistent.grow grows rfl, informed, ⟨tails.length, tails.write⟩,
      ⟨heads.length, heads.write⟩, ?_, queue, mine.written laps, theirs.grow grows List.prefix_rfl⟩
    have written := ledger.write value fresh fun i earlier same => by
      show i < popped.length + consumer.pending
      have lap := mt (Cursor.eq_of_mod (slot_eq_iff.mp same).symm earlier.le) earlier.ne'
      omega
    show Ledger _ (fun j => (pushed ++ [value])[j]?) _
    rw [wrote_concat]
    exact written
  | storeTail value tail =>
    have atTail := mine.point.1
    have settled : view (.inl .tail) + 1 = (m.writes .tail).length := by
      rw [mine.own, tails.length]
    simp only [System.produce, Orders.source, Memory.store_settled _ _ settled, View.give] at moved
    cases moved
    rw [atTail, tails.length]
    have published := mine.published tails
    have grows := append_grows m .tail
      ⟨.ofNat pushed.length + 1, view.see .tail (pushed.length + 1)⟩
    have kept := ledger.append .tail
      ⟨.ofNat pushed.length + 1, view.see .tail (pushed.length + 1)⟩
    have length : (pushed ++ [value]).length = pushed.length + 1 := by simp
    refine ⟨clean, consistent.append published.known, informed_append informed _ published.informed,
      ?_, heads.append_other (by decide) _, ?_, queue.trans (List.prefix_append _ _), ?_,
      theirs.grow grows (List.prefix_append _ _)⟩
    · rw [length]
      exact tails.append (by simp)
    · show Ledger _ (fun j => (pushed ++ [value] ++ [])[j]?) _
      rw [List.append_nil]
      exact kept
    · rw [length]
      exact published

theorem consume_sound (sound : Sound s) (moved : s.consume .source number = some s') :
    Sound s' := by
  obtain ⟨m, producer, theirView, point, view, pushed, popped⟩ := s
  obtain ⟨clean, consistent, informed, tails, heads, ledger, queue, theirs, mine⟩ := id sound
  dsimp only at clean consistent informed tails heads queue mine theirs
  cases point with
  | idle => cases moved
  | loadHead =>
    obtain ⟨⟨head, view'⟩, loaded, rfl⟩ := Option.map_eq_some_iff.mp moved
    obtain ⟨rfl, rfl⟩ := heads.load_own mine.own loaded
    exact ⟨clean, consistent, informed, tails, heads, ledger, queue, theirs,
      { mine with point := rfl }⟩
  | loadTail head =>
    obtain ⟨⟨tail, view'⟩, loaded, rfl⟩ := Option.map_eq_some_iff.mp moved
    obtain ⟨rfl, recent, made, seen, known, informed', own⟩ :=
      sound.load_other mine.known mine.informed heads tails mine.own loaded
    have atHead : head = .ofNat popped.length := mine.point
    have ahead := mine.ahead
    dsimp only at recent made ⊢
    have still : popped.length ≤ view' (.inl .tail) := by omega
    subst atHead
    split
    · exact ⟨clean, consistent, informed, tails, heads, ledger, queue, theirs,
        ⟨known, informed', own, still, trivial⟩⟩
    · rename_i nonempty
      have apart : popped.length ≠ number := fun same =>
        nonempty ((sound.empty_iff recent made).mpr same)
      have below : popped.length < view' (.inl .tail) := by omega
      exact ⟨clean, consistent, informed, tails, heads, ledger, queue, theirs,
        ⟨known, informed', own, still, rfl, below⟩⟩
  | read head =>
    obtain ⟨atHead, below⟩ := mine.point
    have seen := mine.known.writes .tail
    rw [tails.length] at seen
    have early : popped.length < pushed.length := by omega
    have left : ¬ popped.length < popped.length + (.read head : Consumer T).pending :=
      Nat.lt_irrefl _
    have ordered := ledger.read_ordered mine.known left (mine.informed.written _ below)
    have written : (pushed ++ producer.pending)[popped.length]? = some pushed[popped.length] := by
      rw [List.getElem?_append_left early, List.getElem?_eq_getElem early]
    have contents := ledger.contents written left
    have slotAt : C.index head = slot C popped.length := congrArg C.index atHead
    simp only [System.consume, slotAt, Memory.access_ordered ordered] at moved
    cases moved
    have grows := access_grows m (slot C popped.length) m.contents
    have found : pushed[popped.length]? = some (m.contents (slot C popped.length)) := by
      rw [List.getElem?_eq_getElem early]
      exact congrArg some contents.symm
    refine ⟨clean, consistent.grow grows rfl, informed, ⟨tails.length, tails.write⟩,
      ⟨heads.length, heads.write⟩, ?_, queue, theirs.grow grows, mine.taken ordered found⟩
    have taken := ledger.read (by rw [System.wrote, written]; simp) left
    have same : (fun k => k = popped.length ∨ k < popped.length + 0) =
        fun k => k < popped.length + 1 := by
      funext k
      exact propext (by omega)
    show Ledger _ _ (fun k => k < popped.length + 1)
    rw [← same]
    exact taken
  | storeHead out head =>
    obtain ⟨atHead, _, _, found⟩ := mine.point
    have settled : view (.inl .head) + 1 = (m.writes .head).length := by
      rw [mine.own, heads.length]
    simp only [System.consume, Orders.source, Memory.store_settled _ _ settled, View.give] at moved
    cases moved
    rw [atHead, heads.length]
    have retired := mine.retired heads
    have grows := append_grows m .head
      ⟨.ofNat popped.length + 1, view.see .head (popped.length + 1)⟩
    have kept := ledger.append .head
      ⟨.ofNat popped.length + 1, view.see .head (popped.length + 1)⟩
    have length : (popped ++ [out]).length = popped.length + 1 := by simp
    refine ⟨clean, consistent.append retired.known, informed_append informed _ retired.informed,
      tails.append_other (by decide) _, ?_, ?_, ?_, theirs.grow grows, ?_⟩
    · rw [length]
      exact heads.append (by simp)
    · show Ledger _ _ (fun k => k < (popped ++ [out]).length + 0)
      rw [length]
      exact kept
    · obtain ⟨rest, rfl⟩ := queue
      rw [List.getElem?_append_right le_rfl, Nat.sub_self] at found
      cases rest with
      | nil => cases found
      | cons first rest =>
        cases found
        exact ⟨rest, by simp⟩
    · rw [length]
      exact retired

theorem step_sound {command : Command T} (sound : Sound s)
    (moved : s.next .source command = some s') : Sound s' := by
  cases command with
  | callPush value =>
    obtain ⟨m, producer, view, consumer, theirView, pushed, popped⟩ := s
    cases producer with
    | idle =>
      cases moved
      exact { sound with producer := { sound.producer with point := trivial } }
    | loadTail | loadHead | write | storeTail => cases moved
  | callPop =>
    obtain ⟨m, producer, view, consumer, theirView, pushed, popped⟩ := s
    cases consumer with
    | idle =>
      cases moved
      exact { sound with consumer := { sound.consumer with point := trivial } }
    | loadHead | loadTail | read | storeHead => cases moved
  | produce number => exact produce_sound sound moved
  | consume number => exact consume_sound sound moved

theorem informed_zero : Informed (C := C) fun _ => 0 :=
  ⟨fun _ below => (Nat.not_lt_zero _ below).elim, fun _ below => (Nat.not_lt_zero _ below).elim⟩

theorem counted_start {contents : Fin C.size → T} (loc : Location) :
    Counted (Memory.start (fun _ => 0) contents) loc 0 where
  length := rfl
  write found := by
    obtain ⟨rfl, rfl⟩ := Memory.start_getElem? found
    exact ⟨rfl, le_rfl⟩

variable [Inhabited T]

theorem start_sound : Sound (machine T C orders).start where
  clean := rfl
  consistent := Consistent.start _ _
  informed loc write member := by
    rw [List.mem_singleton.mp member]
    exact informed_zero
  tails := counted_start .tail
  heads := counted_start .head
  ledger := by
    have nothing : (machine T C orders).start.took = fun _ => False := by
      funext j
      exact propext ⟨Nat.not_lt_zero j, False.elim⟩
    rw [nothing]
    exact Ledger.start
  queue := List.prefix_rfl
  producer := ⟨Known.start _ _, informed_zero, rfl, Nat.zero_le _, trivial⟩
  consumer := ⟨Known.start _ _, informed_zero, rfl, le_rfl, trivial⟩

/-- Every run under the ring's own orders stays sound. -/
theorem run_sound (reached : (machine T C .source).Reachable Machine.anyStep s) : Sound s :=
  reached.invariant start_sound fun sound moved _ => step_sound sound moved

omit [Inhabited T] in
/-- `try_push` decides on the pops its load of `head_` has seen. -/
theorem Sound.push_verdict (sound : Sound s) {value : T} {tail : UInt64}
    (loading : s.producer = .loadHead value tail)
    (moved : s.next .source (.produce number) = some s') :
    s.producerView (.inl .head) ≤ number ∧ number ≤ s.popped.length ∧
      (s'.producer = .idle ↔ s.pushed.length = number + C.size) := by
  have mine := sound.producer
  simp only [System.next, System.produce, loading] at moved
  obtain ⟨⟨head, view'⟩, loaded, rfl⟩ := Option.map_eq_some_iff.mp moved
  obtain ⟨rfl, recent, made, _⟩ :=
    sound.load_other mine.known mine.informed sound.tails sound.heads mine.own loaded
  have atTail : tail = .ofNat s.pushed.length := by
    have point := mine.point
    rwa [loading] at point
  subst atTail
  have filled := sound.full_iff recent made
  refine ⟨recent, made, ?_⟩
  rw [← filled]
  dsimp only
  split <;> simp_all

omit [Inhabited T] in
/-- `try_pop` decides on the pushes its load of `tail_` has seen. -/
theorem Sound.pop_verdict (sound : Sound s) {head : UInt64}
    (loading : s.consumer = .loadTail head)
    (moved : s.next .source (.consume number) = some s') :
    s.consumerView (.inl .tail) ≤ number ∧ number ≤ s.pushed.length ∧
      (s'.consumer = .idle ↔ s.popped.length = number) := by
  have mine := sound.consumer
  simp only [System.next, System.consume, loading] at moved
  obtain ⟨⟨tail, view'⟩, loaded, rfl⟩ := Option.map_eq_some_iff.mp moved
  obtain ⟨rfl, recent, made, _⟩ :=
    sound.load_other mine.known mine.informed sound.heads sound.tails mine.own loaded
  have atHead : head = .ofNat s.popped.length := by
    have point := mine.point
    rwa [loading] at point
  subst atHead
  have emptied := sound.empty_iff recent made
  refine ⟨recent, made, ?_⟩
  rw [← emptied]
  dsimp only
  split <;> simp_all

/-- **The ring is a queue under its own memory orders.** In every run in which
loads may return old values, no slot access races, pops return the pushed values
in order and at most `Capacity` of them lie between. A refused push has seen
every pop but `Capacity` pushes' worth, a refused pop has seen no push that is
not popped; neither says more of the ring than its thread has heard. -/
theorem weak_memory_fifo (reached : (machine T C .source).Reachable Machine.anyStep s) :
    s.memory.faults = [] ∧ s.popped <+: s.pushed ∧
    s.pushed.length ≤ s.popped.length + C.size ∧
    (∀ value tail number s', s.producer = .loadHead value tail →
      s.next .source (.produce number) = some s' →
      s.producerView (.inl .head) ≤ number ∧ number ≤ s.popped.length ∧
        (s'.producer = .idle ↔ s.pushed.length = number + C.size)) ∧
    (∀ head number s', s.consumer = .loadTail head →
      s.next .source (.consume number) = some s' →
      s.consumerView (.inl .tail) ≤ number ∧ number ≤ s.pushed.length ∧
        (s'.consumer = .idle ↔ s.popped.length = number)) := by
  have sound := run_sound reached
  refine ⟨sound.clean, sound.queue, sound.window.2, ?_, ?_⟩
  · exact fun _ _ _ _ loading moved => sound.push_verdict loading moved
  · exact fun _ _ _ loading moved => sound.pop_verdict loading moved

/-- A push and a pop, before and after which the other thread has an old cursor. -/
def hearsay : List (Command ℕ) :=
  [.callPush 7, .produce 0, .produce 0, .produce 0, .produce 0, .callPop, .consume 0, .consume 0,
    .callPop, .consume 0, .consume 1, .consume 0, .consume 0, .callPush 8, .produce 1, .produce 0]

/-- There a pop and a push are refused although the ring has an element and room. -/
theorem weak_memory_fifo_hearsay :
    let one := machine ℕ ⟨1, by decide, by decide⟩ .source
    ∃ s, one.exec one.start hearsay = some s ∧ (s.pushed, s.popped) = ([7], [7]) ∧
      s.memory.faults = [] ∧ s.popped <+: s.pushed := by
  intro one
  have ends : (one.exec one.start hearsay).map (fun s => (s.pushed, s.popped)) =
      some ([7], [7]) := by
    decide
  obtain ⟨s, ran, answers⟩ := Option.map_eq_some_iff.mp ends
  have queue := weak_memory_fifo (Machine.exec_reaches hearsay ran)
  exact ⟨s, ran, answers, queue.1, queue.2.1⟩

end Ringio.SpscOrders
