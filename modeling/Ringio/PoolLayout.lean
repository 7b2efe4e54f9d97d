import Ringio.FreeList
import Ringio.SqpollEngine

/-! The constructor of `BufferPool` (`buffer_pool.hpp`) and the memory it lays
out. Sizes and addresses are `size_t` values, so products and sums wrap; `data`
takes a 32-bit index. The operating system is what the constructor calls on. -/
namespace Ringio

/-- `sysconf(_SC_PAGESIZE)`, `posix_memalign` and `mlock`. An allocation that
succeeds is aligned and lies within the address space; failures carry an errno. -/
structure Host where
  pageSize : UInt64
  posixMemalign : (alignment size : UInt64) → Except Int32 UInt64
  mlock : (address length : UInt64) → Option Int32
  page_pos : 0 < pageSize.toNat
  aligned : ∀ alignment size base, posixMemalign alignment size = .ok base →
    base.toNat % alignment.toNat = 0
  fits : ∀ alignment size base, posixMemalign alignment size = .ok base →
    base.toNat + size.toNat ≤ 2 ^ 64

/-- What the constructor throws. -/
inductive PoolError where
  | invalidArgument (what : String)
  | systemError (errno : Int32) (what : String)
  deriving DecidableEq

/-- `iovec`. -/
structure Iovec where
  base : UInt64
  len : UInt64
  deriving DecidableEq

/-- A constructed `BufferPool`. -/
structure Pool extends BufferPool where
  bufferCount : UInt64
  locked : Bool
  iovecs : List Iovec
  freeList : FreeList

namespace Pool

/-- `total_size`. -/
def totalSize (bufferCount bufferSize : UInt64) : UInt64 := bufferSize * bufferCount

/-- The pool the constructor builds in the memory at `base`. -/
def build (bufferCount bufferSize base : UInt64) : Pool where
  base
  bufferSize
  bufferCount
  locked := true
  iovecs := (List.range bufferCount.toNat).map fun i => ⟨base + .ofNat i * bufferSize, bufferSize⟩
  freeList := .new bufferCount.toNat

/-- `BufferPool::BufferPool`, its vectors taken to be allocated. -/
def construct (host : Host) (bufferCount bufferSize : UInt64) : Except PoolError Pool :=
  if bufferCount = 0 then .error (.invalidArgument "BufferPool: buffer_count must be > 0")
  else if bufferSize = 0 ∨ bufferSize % host.pageSize ≠ 0 then
    .error (.invalidArgument ("BufferPool: buffer_size must be a nonzero multiple of the page " ++
      "size (" ++ toString host.pageSize.toNat ++ ")"))
  else
    match host.posixMemalign host.pageSize (totalSize bufferCount bufferSize) with
    | .error errno => .error (.systemError errno "BufferPool: posix_memalign failed")
    | .ok base =>
      match host.mlock base (totalSize bufferCount bufferSize) with
      | some errno => .error (.systemError errno "BufferPool: mlock failed")
      | none => .ok (build bufferCount bufferSize base)

variable {host : Host} {bufferCount bufferSize : UInt64} {pool : Pool}

/-- When the constructor returns, its checks passed and the pool lies in the
memory it was given. -/
theorem construct_ok (constructed : construct host bufferCount bufferSize = .ok pool) :
    bufferCount ≠ 0 ∧ bufferSize ≠ 0 ∧ bufferSize % host.pageSize = 0 ∧
      ∃ base, host.posixMemalign host.pageSize (totalSize bufferCount bufferSize) = .ok base ∧
        pool = build bufferCount bufferSize base := by
  unfold construct at constructed
  split at constructed
  · cases constructed
  · rename_i some_
    split at constructed
    · cases constructed
    · rename_i checked
      rw [not_or, not_not] at checked
      split at constructed
      · cases constructed
      · rename_i base allocated
        split at constructed
        · cases constructed
        · cases constructed
          exact ⟨some_, checked.1, checked.2, base, allocated, rfl⟩

/-- The address of buffer `i`; the argument of `data` has 32 bits. -/
def address (pool : Pool) (i : ℕ) : ℕ := (pool.data (.ofNat i)).toNat

/-- What the layout promises: the size computed is the size meant, every buffer
lies in the region and on a page boundary, buffers do not overlap, and the
vectors handed to the kernel describe them. -/
structure LayoutSound (host : Host) (pool : Pool) : Prop where
  total : (totalSize pool.bufferCount pool.bufferSize).toNat =
    pool.bufferCount.toNat * pool.bufferSize.toNat
  inside : ∀ i < pool.bufferCount.toNat, pool.base.toNat ≤ pool.address i ∧
    pool.address i + pool.bufferSize.toNat ≤
      pool.base.toNat + (totalSize pool.bufferCount pool.bufferSize).toNat
  aligned : ∀ i < pool.bufferCount.toNat, pool.address i % host.pageSize.toNat = 0
  apart : ∀ i < pool.bufferCount.toNat, ∀ j < pool.bufferCount.toNat, i ≠ j →
    pool.address i + pool.bufferSize.toNat ≤ pool.address j ∨
      pool.address j + pool.bufferSize.toNat ≤ pool.address i
  vectors : ∀ i < pool.bufferCount.toNat,
    pool.iovecs[i]? = some ⟨pool.data (.ofNat i), pool.bufferSize⟩

/-- Below the wrap an address is the base and so many buffers. -/
theorem address_eq {i : ℕ} (index : i < 2 ^ 32)
    (below : pool.base.toNat + i * pool.bufferSize.toNat < 2 ^ 64) :
    pool.address i = pool.base.toNat + i * pool.bufferSize.toNat := by
  have narrow : (UInt32.ofNat i).toUInt64.toNat = i := by
    rw [UInt32.toNat_toUInt64, UInt32.toNat_ofNat', Nat.mod_eq_of_lt index]
  rw [address, BufferPool.data, UInt64.toNat_add, UInt64.toNat_mul, narrow,
    Nat.add_mod_mod, Nat.mod_eq_of_lt below]

/-- The vectors describe the buffers that a 32-bit index can name. -/
theorem iovecs_build {base : UInt64} {i : ℕ} (below : i < bufferCount.toNat) (index : i < 2 ^ 32) :
    (build bufferCount bufferSize base).iovecs[i]? =
      some ⟨(build bufferCount bufferSize base).data (.ofNat i), bufferSize⟩ := by
  have wide : (UInt32.ofNat i).toUInt64 = .ofNat i := by
    apply UInt64.toNat_inj.mp
    rw [UInt32.toNat_toUInt64, UInt32.toNat_ofNat', UInt64.toNat_ofNat']
    omega
  have entry : (List.range bufferCount.toNat)[i]? = some i := List.getElem?_range below
  simp only [build, BufferPool.data, wide, List.getElem?_map, entry, Option.map_some]

/-- Without a wrap in the product and with indices of 32 bits, the layout is as
meant. -/
theorem layoutSound_of_fits (constructed : construct host bufferCount bufferSize = .ok pool)
    (product : bufferCount.toNat * bufferSize.toNat < 2 ^ 64)
    (indices : bufferCount.toNat ≤ 2 ^ 32) : LayoutSound host pool := by
  obtain ⟨-, nonzero, multiple, base, allocated, rfl⟩ := construct_ok constructed
  have total : (totalSize bufferCount bufferSize).toNat =
      bufferCount.toNat * bufferSize.toNat := by
    rw [totalSize, UInt64.toNat_mul, Nat.mul_comm, Nat.mod_eq_of_lt product]
  have positive : 0 < bufferSize.toNat :=
    Nat.pos_of_ne_zero fun zero => nonzero (UInt64.toNat_inj.mp zero)
  have pages : bufferSize.toNat % host.pageSize.toNat = 0 := by
    rw [← UInt64.toNat_mod, multiple]
    rfl
  have onPage := host.aligned _ _ base allocated
  have fits := host.fits _ _ base allocated
  rw [total] at fits
  have ordered {i j : ℕ} (before : i < j) :
      i * bufferSize.toNat + bufferSize.toNat ≤ j * bufferSize.toNat := by
    rw [← Nat.succ_mul]
    exact Nat.mul_le_mul_right _ before
  have located {i : ℕ} (below : i < bufferCount.toNat) :
      (build bufferCount bufferSize base).address i = base.toNat + i * bufferSize.toNat := by
    refine address_eq (below.trans_le indices) ?_
    have room := ordered below
    show base.toNat + i * bufferSize.toNat < 2 ^ 64
    omega
  refine ⟨total, ?_, ?_, ?_, ?_⟩
  · intro i (below : i < bufferCount.toNat)
    have room := ordered below
    rw [located below]
    refine ⟨Nat.le_add_right _ _, ?_⟩
    show _ + bufferSize.toNat ≤ base.toNat + (totalSize bufferCount bufferSize).toNat
    omega
  · intro i below
    rw [located below, Nat.add_mod, onPage, Nat.mul_mod, pages]
    simp
  · intro i below j below' distinct
    rw [located below, located below']
    rcases Nat.lt_or_gt_of_ne distinct with before | after
    · left
      have gap := ordered before
      show _ + bufferSize.toNat ≤ _
      omega
    · right
      have gap := ordered after
      show _ + bufferSize.toNat ≤ _
      omega
  · intro i below
    exact iovecs_build below (below.trans_le indices)

/-- The converse: a product that wraps is not the size meant, and past `2 ^ 32`
buffers two of them get the same address. -/
theorem fits_of_layoutSound (constructed : construct host bufferCount bufferSize = .ok pool)
    (sound : LayoutSound host pool) :
    bufferCount.toNat * bufferSize.toNat < 2 ^ 64 ∧ bufferCount.toNat ≤ 2 ^ 32 := by
  obtain ⟨-, nonzero, -, base, -, rfl⟩ := construct_ok constructed
  have positive : 0 < bufferSize.toNat :=
    Nat.pos_of_ne_zero fun zero => nonzero (UInt64.toNat_inj.mp zero)
  constructor
  · have total : _ = bufferCount.toNat * bufferSize.toNat := sound.total
    rw [← total]
    exact UInt64.toNat_lt _
  · by_contra many
    have apart := sound.apart 0 (show 0 < bufferCount.toNat by omega) (2 ^ 32)
      (show 2 ^ 32 < bufferCount.toNat by omega) (by decide)
    have same : (build bufferCount bufferSize base).address (2 ^ 32) =
        (build bufferCount bufferSize base).address 0 := by
      rw [address, address, show UInt32.ofNat (2 ^ 32) = UInt32.ofNat 0 by decide]
    rw [same] at apart
    change _ + bufferSize.toNat ≤ _ ∨ _ + bufferSize.toNat ≤ _ at apart
    omega

/-- **The layout is sound exactly when the size product does not wrap and every
index has 32 bits**, for every pair of arguments the constructor accepts. -/
theorem layout_sound_iff (constructed : construct host bufferCount bufferSize = .ok pool) :
    LayoutSound host pool ↔
      bufferCount.toNat * bufferSize.toNat < 2 ^ 64 ∧ bufferCount.toNat ≤ 2 ^ 32 := by
  constructor
  · exact fits_of_layoutSound constructed
  · rintro ⟨product, indices⟩
    exact layoutSound_of_fits constructed product indices

/-- A host with pages of 4096 bytes that has one region to give. -/
def smallHost : Host where
  pageSize := 4096
  posixMemalign alignment size :=
    if 65536 % alignment.toNat = 0 ∧ 65536 + size.toNat ≤ 2 ^ 64 then .ok 65536 else .error 12
  mlock _ _ := none
  page_pos := by decide
  aligned alignment size base allocated := by
    split at allocated
    · rename_i region
      cases allocated
      exact region.1
    · cases allocated
  fits alignment size base allocated := by
    split at allocated
    · rename_i region
      cases allocated
      exact region.2
    · cases allocated

/-- Two buffers of one page. -/
theorem layout_sound_iff_twoPages :
    ∃ pool, construct smallHost 2 4096 = .ok pool ∧ LayoutSound smallHost pool := by
  have constructed : construct smallHost 2 4096 = .ok (build 2 4096 65536) := rfl
  exact ⟨_, constructed, (layout_sound_iff constructed).mpr ⟨by decide, by decide⟩⟩

/-- Two buffers of half the address space and a page: the sizes add up to two
pages, those are allocated and locked, and the second buffer lies outside. -/
theorem wrapped_product_accepted :
    ∃ pool, construct smallHost 2 0x8000000000001000 = .ok pool ∧
      (totalSize 2 0x8000000000001000).toNat = 8192 ∧ ¬ LayoutSound smallHost pool ∧
      pool.base.toNat + (totalSize 2 0x8000000000001000).toNat < pool.address 1 := by
  have constructed : construct smallHost 2 0x8000000000001000 =
      .ok (build 2 0x8000000000001000 65536) := rfl
  refine ⟨_, constructed, by decide, fun sound => ?_, by decide⟩
  have fits := fits_of_layoutSound constructed sound
  exact absurd fits.1 (by decide)

end Pool
end Ringio
