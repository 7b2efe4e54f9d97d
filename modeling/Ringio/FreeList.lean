import Ringio.LinkedStack
import Ringio.Machine

/-! The free list of `BufferPool` (`buffer_pool.hpp`): a stack of buffer indices
whose head word carries a tag that counts pushes and pops. `acquire` and
`release` are loops around one compare-exchange, given here one shared access
at a time. -/
namespace Ringio

/-- `BufferPool::kInvalidIndex`, the largest 32-bit value. -/
def kInvalidIndex : UInt32 := 0xFFFFFFFF

/-- `BufferPool::Pack`. -/
def pack (index tag : UInt32) : UInt64 := (tag.toUInt64 <<< 32) ||| index.toUInt64

/-- `BufferPool::UnpackIndex`. -/
def unpackIndex (packed : UInt64) : UInt32 := packed.toUInt32

/-- `BufferPool::UnpackTag`. -/
def unpackTag (packed : UInt64) : UInt32 := (packed >>> 32).toUInt32

theorem pack_toNat (index tag : UInt32) :
    (pack index tag).toNat = tag.toNat * 2 ^ 32 + index.toNat := by
  have tagSmall := tag.toNat_lt
  have indexSmall := index.toNat_lt
  have shifted : (tag.toUInt64 <<< 32).toNat = tag.toNat <<< 32 := by
    rw [UInt64.toNat_shiftLeft]
    simp only [UInt32.toNat_toUInt64, UInt64.reduceToNat, Nat.reduceMod, Nat.shiftLeft_eq]
    omega
  rw [pack, UInt64.toNat_or, shifted, UInt32.toNat_toUInt64,
    ← Nat.shiftLeft_add_eq_or_of_lt indexSmall, Nat.shiftLeft_eq]

@[simp] theorem unpackIndex_pack (index tag : UInt32) : unpackIndex (pack index tag) = index := by
  have indexSmall := index.toNat_lt
  apply UInt32.toNat_inj.mp
  rw [unpackIndex, UInt64.toNat_toUInt32, pack_toNat]
  omega

@[simp] theorem unpackTag_pack (index tag : UInt32) : unpackTag (pack index tag) = tag := by
  have tagSmall := tag.toNat_lt
  have indexSmall := index.toNat_lt
  apply UInt32.toNat_inj.mp
  rw [unpackTag, UInt64.toNat_toUInt32, UInt64.toNat_shiftRight, pack_toNat]
  simp only [UInt64.reduceToNat, Nat.reduceMod, Nat.shiftRight_eq_div_pow]
  omega

/-- A head word is its two halves. -/
theorem pack_unpack (packed : UInt64) : pack (unpackIndex packed) (unpackTag packed) = packed := by
  apply UInt64.toNat_inj.mp
  have bound := packed.toNat_lt
  rw [pack_toNat, unpackIndex, unpackTag, UInt64.toNat_toUInt32, UInt64.toNat_toUInt32,
    UInt64.toNat_shiftRight]
  simp only [UInt64.reduceToNat, Nat.reduceMod, Nat.shiftRight_eq_div_pow]
  omega

/-- `free_head_` and `free_next_`. -/
structure FreeList where
  freeHead : UInt64
  freeNext : ℕ → UInt32

/-- Program points of `acquire`; `exchange` is the compare-exchange on
`free_head_`. -/
inductive AcquirePoint where
  | loadHead
  | loadNext (head : UInt64)
  | exchange (head : UInt64) (next : UInt32)
  deriving DecidableEq

/-- Program points of `release`. -/
inductive ReleasePoint where
  | loadHead
  | storeNext (head : UInt64)
  | exchange (head : UInt64)
  deriving DecidableEq

namespace FreeList

/-- The constructor threads the list from the last index down to the first. -/
def new (bufferCount : ℕ) : FreeList where
  freeHead := pack (.ofNat (bufferCount - 1)) 0
  freeNext i := if i = 0 then kInvalidIndex else .ofNat (i - 1)

/-- The top of the `acquire` loop: return, or go on with the index read. -/
def look (head : UInt64) : Progress AcquirePoint UInt32 :=
  if unpackIndex head = kInvalidIndex then .returned kInvalidIndex else .running (.loadNext head)

/-- One step of `BufferPool::acquire`. A failed compare-exchange leaves the
current head in `head`. -/
def acquireStep (list : FreeList) (spurious : Bool) :
    AcquirePoint → FreeList × Progress AcquirePoint UInt32
  | .loadHead => (list, look list.freeHead)
  | .loadNext head => (list, .running (.exchange head (list.freeNext (unpackIndex head).toNat)))
  | .exchange head next =>
    if list.freeHead = head ∧ spurious = false then
      ({ list with freeHead := pack next (unpackTag head + 1) }, .returned (unpackIndex head))
    else (list, look list.freeHead)

/-- One step of `BufferPool::release`. -/
def releaseStep (list : FreeList) (index : UInt32) (spurious : Bool) :
    ReleasePoint → FreeList × Progress ReleasePoint Unit
  | .loadHead => (list, .running (.storeNext list.freeHead))
  | .storeNext head =>
    ({ list with freeNext := Function.update list.freeNext index.toNat (unpackIndex head) },
      .running (.exchange head))
  | .exchange head =>
    if list.freeHead = head ∧ spurious = false then
      ({ list with freeHead := pack index (unpackTag head + 1) }, .returned ())
    else (list, .running (.storeNext list.freeHead))

/-- The successor of an index, as `free_next_` has it. -/
def next (list : FreeList) (index : UInt32) : UInt32 := list.freeNext index.toNat

/-- These indices, in this order, are what the list threads from its head. -/
def Threads (list : FreeList) (free : List UInt32) : Prop :=
  LinkedStack.Threaded list.next kInvalidIndex (unpackIndex list.freeHead) free

/-- The indices of a fresh pool, in the order the list has them. -/
def initial (bufferCount : ℕ) : List UInt32 :=
  ((List.range bufferCount).map UInt32.ofNat).reverse

theorem initial_succ (bufferCount : ℕ) :
    initial (bufferCount + 1) = .ofNat bufferCount :: initial bufferCount := by
  simp [initial, List.range_succ]

theorem mem_initial {bufferCount : ℕ} {index : UInt32} :
    index ∈ initial bufferCount ↔ index.toNat < bufferCount := by
  simp only [initial, List.mem_reverse, List.mem_map, List.mem_range]
  constructor
  · rintro ⟨i, below, rfl⟩
    exact (Nat.mod_le _ _).trans_lt below
  · exact fun below => ⟨index.toNat, below, UInt32.ofNat_toNat⟩

theorem initial_nodup {bufferCount : ℕ} (small : bufferCount ≤ 2 ^ 32) :
    (initial bufferCount).Nodup := by
  rw [initial, List.nodup_reverse]
  refine List.Nodup.map_on ?_ List.nodup_range
  intro i member j member' same
  have low := List.mem_range.mp member
  have low' := List.mem_range.mp member'
  have values := congrArg UInt32.toNat same
  simp only [UInt32.toNat_ofNat'] at values
  omega

/-- The constructor's list holds the indices that the 32-bit cells can tell
apart from its end marker. -/
theorem new_threads_mod {bufferCount : ℕ} (positive : 0 < bufferCount) :
    (new bufferCount).Threads (initial (bufferCount % 2 ^ 32)) := by
  have below (count : ℕ) (fits : count < 2 ^ 32) :
      LinkedStack.Threaded (new bufferCount).next kInvalidIndex
        (if count = 0 then kInvalidIndex else .ofNat (count - 1)) (initial count) := by
    induction count with
    | zero => rfl
    | succ count ih =>
      have exact_ : (UInt32.ofNat count).toNat = count :=
        UInt32.toNat_ofNat_of_lt' (by simpa [UInt32.size] using Nat.lt_of_succ_lt fits)
      rw [initial_succ]
      refine ⟨rfl, fun last => ?_, ?_⟩
      · have same := congrArg UInt32.toNat last
        rw [exact_] at same
        simp only [kInvalidIndex, UInt32.reduceToNat] at same
        omega
      · simp only [next, new, exact_]
        exact ih (by omega)
  have first : (if bufferCount % 2 ^ 32 = 0 then kInvalidIndex
      else .ofNat (bufferCount % 2 ^ 32 - 1)) = UInt32.ofNat (bufferCount - 1) := by
    apply UInt32.toNat_inj.mp
    split
    · rw [UInt32.toNat_ofNat']
      simp only [kInvalidIndex, UInt32.reduceToNat]
      omega
    · rw [UInt32.toNat_ofNat', UInt32.toNat_ofNat']
      omega
  have whole := below (bufferCount % 2 ^ 32) (Nat.mod_lt _ (by decide))
  rw [first] at whole
  simpa only [Threads, new, unpackIndex_pack] using whole

/-- Below `2 ^ 32` buffers those are all of them. -/
theorem new_threads {bufferCount : ℕ} (positive : 0 < bufferCount) (small : bufferCount < 2 ^ 32) :
    (new bufferCount).Threads (initial bufferCount) := by
  have threads := new_threads_mod positive
  rwa [Nat.mod_eq_of_lt small] at threads

end FreeList
end Ringio
