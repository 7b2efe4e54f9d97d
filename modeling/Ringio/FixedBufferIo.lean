import Ringio.ByteCopies
import Ringio.PoolLayout

/-! What an entry makes the kernel do and what its request asks for. The kernel
sees one memory, registered files and registered vectors, and an entry that
gives an address; a request speaks of a buffer of the pool. That the two mean the
same for every request, well formed or not, is what the pool's layout, its
registration and the translation owe each other. -/
namespace Ringio
open ByteCopies

/-! ## The kernel -/

/-- `io_uring_register_buffers` and `io_uring_register_files` with the tables they
set up; failures carry an errno. The kernel takes at most `2 ^ 14` vectors, each
of at most 1 GiB. -/
structure Kernel where
  registerBuffers : (iovecs : List Iovec) → (count : UInt32) → Except Int32 (List Iovec)
  registerFiles : (fds : List Int32) → (count : UInt32) → Except Int32 (List Int32)
  buffers : ∀ iovecs count table, registerBuffers iovecs count = .ok table →
    table = iovecs.take count.toNat ∧ count.toNat ≤ 2 ^ 14 ∧ ∀ iovec ∈ table, iovec.len.toNat ≤ 2 ^ 30
  files : ∀ fds count table, registerFiles fds count = .ok table → table = fds.take count.toNat

/-- `BufferPool::register_with`; the number of vectors is passed as `unsigned`. -/
def Pool.registerWith (pool : Pool) (kernel : Kernel) : Except Int32 (List Iovec) :=
  kernel.registerBuffers pool.iovecs (.ofNat pool.iovecs.length)

/-- `SqpollEngine::register_files`. -/
def registerFiles (kernel : Kernel) (fds : List Int32) : Except Int32 (List Int32) :=
  kernel.registerFiles fds (.ofNat fds.length)

/-- What there is to read and write, and the position each open file is at. -/
structure World (Obj : Type) where
  bytes : Obj → ℕ → UInt8
  position : Int32 → ℕ

/-- What the kernel leaves open: which of the failed checks it reports, or how
many bytes it moves and whether it then reports an error. -/
inductive Outcome where
  | refused (errno : Int32)
  | moved (count : ℕ) (errno : Option Int32)
  deriving DecidableEq

/-- The largest number of bytes one operation moves. -/
def maxRwCount : ℕ := 0x7ffff000

/-- The offset that stands for the file's position. -/
def currentPosition : UInt64 := 0xFFFFFFFFFFFFFFFF

/-- `EBADF`, `EFAULT` and `EINVAL` for the checks that fail. -/
def refusals (file buffer offset : Bool) : List Int32 :=
  (if file then [] else [9]) ++ (if buffer then [] else [14]) ++ (if offset then [] else [22])

theorem refusals_eq_nil {file buffer offset : Bool} :
    refusals file buffer offset = [] ↔ file = true ∧ buffer = true ∧ offset = true := by
  cases file <;> cases buffer <;> cases offset <;> decide

/-- Offsets are signed 64-bit values, of which `-1` has a meaning of its own. -/
def offsetValid (off : UInt64) : Bool := off.toNat < 2 ^ 63 || off = currentPosition

section
variable {Obj : Type} [DecidableEq Obj]

/-- Bytes go between a stretch of memory and a file, at the offset or at the
file's position. -/
def transfer (file : Int32 → Obj) (w : World Obj) (op : IoOp) (buffer : Place Obj)
    (descriptor : Int32) (off : UInt64) (count : ℕ) : World Obj :=
  let start := if off = currentPosition then w.position descriptor else off.toNat
  { bytes := match op with
      | .read => copy w.bytes buffer ⟨file descriptor, start⟩ count
      | .write => copy w.bytes ⟨file descriptor, start⟩ buffer count
    position := if off = currentPosition then
      Function.update w.position descriptor (w.position descriptor + count) else w.position }

theorem transfer_read (file : Int32 → Obj) (w : World Obj) (buffer : Place Obj)
    (descriptor : Int32) (off : UInt64) (count : ℕ) :
    (transfer file w .read buffer descriptor off count).bytes = copy w.bytes buffer
      ⟨file descriptor, if off = currentPosition then w.position descriptor else off.toNat⟩
      count := rfl

theorem transfer_write (file : Int32 → Obj) (w : World Obj) (buffer : Place Obj)
    (descriptor : Int32) (off : UInt64) (count : ℕ) :
    (transfer file w .write buffer descriptor off count).bytes = copy w.bytes
      ⟨file descriptor, if off = currentPosition then w.position descriptor else off.toNat⟩
      buffer count := rfl

/-- One operation and its result. -/
def perform (file : Int32 → Obj) (descriptor : Option Int32) (accessible : Bool) (op : IoOp)
    (buffer : Place Obj) (off : UInt64) (len : UInt32) (w : World Obj) :
    Outcome → Option (World Obj × Int32)
  | .refused errno =>
    if errno ∈ refusals descriptor.isSome accessible (offsetValid off) then some (w, -errno)
    else none
  | .moved count errno =>
    if refusals descriptor.isSome accessible (offsetValid off) = [] ∧
        count ≤ min len.toNat maxRwCount then
      descriptor.map fun descriptor =>
        (transfer file w op buffer descriptor off count, match errno with
          | none => .ofNat count
          | some errno => -errno)
    else none

/-- An operation fails a check and changes nothing, or moves its bytes. -/
theorem perform_eq_some {file : Int32 → Obj} {descriptor : Option Int32} {accessible : Bool}
    {op : IoOp} {buffer : Place Obj} {off : UInt64} {len : UInt32} {w w' : World Obj}
    {outcome : Outcome} {result : Int32}
    (done : perform file descriptor accessible op buffer off len w outcome = some (w', result)) :
    w' = w ∨ ∃ found count, descriptor = some found ∧ accessible = true ∧ count ≤ len.toNat ∧
      w' = transfer file w op buffer found off count := by
  cases outcome with
  | refused errno =>
    simp only [perform] at done
    split at done
    · cases done
      exact .inl rfl
    · cases done
  | moved count errno =>
    simp only [perform] at done
    split at done
    · rename_i passed
      obtain ⟨found, rfl, same⟩ := Option.map_eq_some_iff.mp done
      cases same
      exact .inr ⟨found, count, rfl, (refusals_eq_nil.mp passed.1).2.1,
        passed.2.trans (min_le_left _ _), rfl⟩
    · cases done

/-- Where it ends by moving bytes it moves them. -/
theorem perform_moved {file : Int32 → Obj} {descriptor : Option Int32} {accessible : Bool}
    {op : IoOp} {buffer : Place Obj} {off : UInt64} {len : UInt32} {w w' : World Obj} {count : ℕ}
    {errno : Option Int32} {result : Int32}
    (done : perform file descriptor accessible op buffer off len w (.moved count errno) =
      some (w', result)) :
    ∃ found, descriptor = some found ∧ w' = transfer file w op buffer found off count := by
  simp only [perform] at done
  split at done
  · obtain ⟨found, rfl, same⟩ := Option.map_eq_some_iff.mp done
    cases same
    exact ⟨found, rfl, rfl⟩
  · cases done

/-- Whether an operation ends so and with which result does not depend on what there
is to read and write; neither do the stretches it moves. -/
theorem perform_uniform (file : Int32 → Obj) (descriptor : Option Int32) (accessible : Bool)
    (op : IoOp) (buffer : Place Obj) (off : UInt64) (len : UInt32) (outcome : Outcome) :
    ∃ move : Option ((World Obj → World Obj) × Int32),
      (∀ w, perform file descriptor accessible op buffer off len w outcome =
        move.map fun move => (move.1 w, move.2)) ∧
      ∀ f result, move = some (f, result) → f = id ∨ ∃ found count, descriptor = some found ∧
        count ≤ len.toNat ∧ f = fun w => transfer file w op buffer found off count := by
  cases outcome with
  | refused errno =>
    refine ⟨if errno ∈ refusals descriptor.isSome accessible (offsetValid off) then
      some (id, -errno) else none, fun w => ?_, fun f result same => .inl ?_⟩
    · simp only [perform]
      split <;> rfl
    · split at same
      · cases same
        rfl
      · cases same
  | moved count errno =>
    refine ⟨if refusals descriptor.isSome accessible (offsetValid off) = [] ∧
        count ≤ min len.toNat maxRwCount then
      descriptor.map fun found => (fun w => transfer file w op buffer found off count,
        match errno with
        | none => .ofNat count
        | some errno => -errno) else none, fun w => ?_, fun f result same => .inr ?_⟩
    · simp only [perform]
      split
      · rw [Option.map_map]
        rfl
      · rfl
    · split at same
      · rename_i passed
        obtain ⟨found, rfl, moves⟩ := Option.map_eq_some_iff.mp same
        cases moves
        exact ⟨found, count, rfl, passed.2.trans (min_le_left _ _), rfl⟩
      · cases same

/-- The same operation on two worlds: the checks are the same, so it is enough that
the bytes it moves keep them related. -/
theorem perform_rel {Obj' : Type} [DecidableEq Obj'] {file : Int32 → Obj} {file' : Int32 → Obj'}
    {descriptor : Option Int32} {accessible : Bool} {op : IoOp} {buffer : Place Obj}
    {buffer' : Place Obj'} {off : UInt64} {len : UInt32} {a : World Obj} {w : World Obj'}
    {related : World Obj → World Obj' → Prop} (same : related a w) (outcome : Outcome)
    (moves : ∀ found count, descriptor = some found → accessible = true → count ≤ len.toNat →
      related (transfer file a op buffer found off count)
        (transfer file' w op buffer' found off count)) :
    Option.Rel (fun x y => related x.1 y.1 ∧ x.2 = y.2)
      (perform file descriptor accessible op buffer off len a outcome)
      (perform file' descriptor accessible op buffer' off len w outcome) := by
  cases outcome with
  | refused errno =>
    by_cases reported : errno ∈ refusals descriptor.isSome accessible (offsetValid off)
    · simp only [perform, if_pos reported]
      exact .some ⟨same, rfl⟩
    · simp only [perform, if_neg reported]
      exact .none
  | moved count errno =>
    by_cases passed : refusals descriptor.isSome accessible (offsetValid off) = [] ∧
        count ≤ min len.toNat maxRwCount
    · simp only [perform, if_pos passed]
      cases descriptor with
      | none => exact .none
      | some found =>
        have checked := (refusals_eq_nil.mp passed.1).2.1
        exact .some ⟨moves found count rfl checked (passed.2.trans (min_le_left _ _)), rfl⟩
    · simp only [perform, if_neg passed]
      exact .none

end

/-- Memory and the open files. -/
inductive Device where
  | memory
  | file (descriptor : Int32)
  deriving DecidableEq

/-- Whether the stretch an entry names is in the vector it names. -/
def inVector (iovecs : List Iovec) (sqe : Sqe) : Bool :=
  match iovecs[sqe.bufIndex.toNat]? with
  | none => false
  | some iovec => iovec.base.toNat ≤ sqe.addr.toNat ∧
      sqe.addr.toNat + sqe.len.toNat ≤ iovec.base.toNat + iovec.len.toNat

/-- The file an entry names: by its place in the table, or directly. -/
def fileOf (files : List Int32) (sqe : Sqe) : Option Int32 :=
  if sqe.flags &&& fixedFileFlag = 0 then some sqe.fd else files[sqe.fd.toUInt32.toNat]?

/-- The kernel carries out an entry. -/
def execute (files : List Int32) (iovecs : List Iovec) (w : World Device) (sqe : Sqe) :
    Outcome → Option (World Device × Int32) :=
  perform .file (fileOf files sqe) (inVector iovecs sqe) sqe.opcode ⟨.memory, sqe.addr.toNat⟩
    sqe.off sqe.len w

/-! ## The requests -/

/-- The buffers of a pool and the open files. -/
inductive Resource where
  | buffer (index : ℕ)
  | file (descriptor : Int32)
  deriving DecidableEq

/-- What the buffers and files hold in a given memory. -/
def Pool.view (pool : Pool) (w : World Device) : World Resource where
  bytes
    | .buffer i, j => w.bytes .memory (pool.address i + j)
    | .file descriptor, j => w.bytes (.file descriptor) j
  position := w.position

/-- No buffer of the pool has this address. -/
def Pool.Beside (pool : Pool) (address : ℕ) : Prop :=
  ∀ i < pool.bufferCount.toNat, address < pool.address i ∨
    pool.address i + pool.bufferSize.toNat ≤ address

/-- What a request asks for: to move bytes between the front of its buffer and its
file, if there is such a buffer, as long as that, and such a file. -/
def serve (files : List Int32) (bufferCount bufferSize : ℕ) (w : World Resource)
    (req : IoRequest) : Outcome → Option (World Resource × Int32) :=
  perform .file files[req.fixedFdIndex.toUInt32.toNat]?
    (req.bufferIndex.toNat < bufferCount && req.length.toNat ≤ bufferSize) req.op
    ⟨.buffer req.bufferIndex.toNat, 0⟩ req.offset req.length w

/-! ## A registered pool -/

/-- What construction and registration leave: so many buffers one behind the
other, within the address space, and a vector for each. -/
structure Installed (pool : Pool) (iovecs : List Iovec) : Prop where
  positive : 0 < pool.bufferSize.toNat
  size : pool.bufferSize.toNat ≤ 2 ^ 30
  count : pool.bufferCount.toNat ≤ 2 ^ 14
  fits : pool.base.toNat + pool.bufferCount.toNat * pool.bufferSize.toNat ≤ 2 ^ 64
  length : iovecs.length = pool.bufferCount.toNat
  vectors : ∀ i < pool.bufferCount.toNat,
    iovecs[i]? = some ⟨pool.data (.ofNat i), pool.bufferSize⟩

variable {host : Host} {kernel : Kernel} {bufferCount bufferSize : UInt64} {pool : Pool}
  {iovecs : List Iovec} {files : List Int32}

theorem registerFiles_eq {fds : List Int32} (few : fds.length < 2 ^ 32)
    (registered : registerFiles kernel fds = .ok files) : files = fds := by
  have table := kernel.files _ _ _ registered
  rw [UInt32.toNat_ofNat', Nat.mod_eq_of_lt few, List.take_length] at table
  exact table

theorem installed (constructed : Pool.construct host bufferCount bufferSize = .ok pool)
    (few : bufferCount.toNat < 2 ^ 32) (registered : pool.registerWith kernel = .ok iovecs) :
    Installed pool iovecs := by
  obtain ⟨some_, nonzero, -, base, allocated, rfl⟩ := Pool.construct_ok constructed
  have positive : 0 < bufferSize.toNat :=
    Nat.pos_of_ne_zero fun zero => nonzero (UInt64.toNat_inj.mp zero)
  have several : 0 < bufferCount.toNat :=
    Nat.pos_of_ne_zero fun zero => some_ (UInt64.toNat_inj.mp zero)
  have length : (Pool.build bufferCount bufferSize base).iovecs.length = bufferCount.toNat := by
    simp [Pool.build]
  obtain ⟨table, limit, sizes⟩ := kernel.buffers _ _ _ registered
  have narrow : (UInt32.ofNat (Pool.build bufferCount bufferSize base).iovecs.length).toNat =
      bufferCount.toNat := by
    rw [length, UInt32.toNat_ofNat', Nat.mod_eq_of_lt few]
  rw [narrow] at table limit
  rw [List.take_of_length_le length.le] at table
  subst table
  have vectors (i : ℕ) (below : i < bufferCount.toNat) :
      (Pool.build bufferCount bufferSize base).iovecs[i]? =
        some ⟨(Pool.build bufferCount bufferSize base).data (.ofNat i), bufferSize⟩ :=
    Pool.iovecs_build below (below.trans few)
  have size : bufferSize.toNat ≤ 2 ^ 30 := sizes _ (List.mem_of_getElem? (vectors 0 several))
  refine ⟨positive, size, limit, ?_, length, vectors⟩
  have product : bufferCount.toNat * bufferSize.toNat ≤ 2 ^ 14 * 2 ^ 30 := Nat.mul_le_mul limit size
  have fits := host.fits _ _ base allocated
  rw [Pool.totalSize, UInt64.toNat_mul, Nat.mul_comm, Nat.mod_eq_of_lt (by omega)] at fits
  exact fits

/-- A kernel that refuses what the limits make it refuse. -/
def Kernel.strict : Kernel where
  registerBuffers iovecs count :=
    if count.toNat ≤ 2 ^ 14 ∧ ∀ iovec ∈ iovecs.take count.toNat, iovec.len.toNat ≤ 2 ^ 30 then
      .ok (iovecs.take count.toNat)
    else .error 22
  registerFiles fds count := .ok (fds.take count.toNat)
  buffers iovecs count table registered := by
    split at registered
    · rename_i within
      cases registered
      exact ⟨rfl, within⟩
    · cases registered
  files fds count table registered := by
    cases registered
    rfl

namespace Installed

/-- Buffers lie one behind the other. -/
theorem address_eq (installed : Installed pool iovecs) {i : ℕ}
    (below : i < pool.bufferCount.toNat) :
    pool.address i = pool.base.toNat + i * pool.bufferSize.toNat := by
  have count := installed.count
  have fits := installed.fits
  have positive := installed.positive
  have before : (i + 1) * pool.bufferSize.toNat ≤
      pool.bufferCount.toNat * pool.bufferSize.toNat := Nat.mul_le_mul_right _ below
  rw [Nat.succ_mul] at before
  exact Pool.address_eq (by omega) (by omega)

/-- **The kernel's check is the pool's.** An entry passes exactly if its request
names a buffer there is and no more bytes than it has, although the entry holds
only 16 bits of the index and an address that may have wrapped. -/
theorem inVector_iff (installed : Installed pool iovecs) (req : IoRequest) :
    inVector iovecs (translate pool.toBufferPool req) =
      (req.bufferIndex.toNat < pool.bufferCount.toNat &&
        req.length.toNat ≤ pool.bufferSize.toNat) := by
  have count := installed.count
  have index : (translate pool.toBufferPool req).bufIndex.toNat =
      req.bufferIndex.toNat % 2 ^ 16 := UInt32.toNat_toUInt16 ..
  rw [inVector, index]
  by_cases valid : req.bufferIndex.toNat < pool.bufferCount.toNat
  · rw [Nat.mod_eq_of_lt (by omega), installed.vectors _ valid, UInt32.ofNat_toNat]
    simp [valid, translate]
  · have refused {j : ℕ} (far : j + 2 ^ 16 ≤ req.bufferIndex.toNat)
        (below : j < pool.bufferCount.toNat) :
        ¬ (pool.address j ≤ (translate pool.toBufferPool req).addr.toNat ∧
          (translate pool.toBufferPool req).addr.toNat + (translate pool.toBufferPool req).len.toNat ≤
            pool.address j + pool.bufferSize.toNat) := by
      have positive := installed.positive
      have size := installed.size
      have bits := req.bufferIndex.toNat_lt
      have gap : (j + 2 ^ 16) * pool.bufferSize.toNat ≤
          req.bufferIndex.toNat * pool.bufferSize.toNat := Nat.mul_le_mul_right _ far
      have most : req.bufferIndex.toNat * pool.bufferSize.toNat ≤ 2 ^ 32 * 2 ^ 30 :=
        Nat.mul_le_mul bits.le size
      have addr : (translate pool.toBufferPool req).addr.toNat =
          (pool.base.toNat + req.bufferIndex.toNat * pool.bufferSize.toNat) % 2 ^ 64 := by
        show (pool.base + req.bufferIndex.toUInt64 * pool.bufferSize).toNat = _
        rw [UInt64.toNat_add, UInt64.toNat_mul, UInt32.toNat_toUInt64, Nat.add_mod_mod]
      rw [installed.address_eq below, addr]
      rw [Nat.add_mul] at gap
      omega
    have rest : (decide (req.bufferIndex.toNat < pool.bufferCount.toNat) &&
        decide (req.length.toNat ≤ pool.bufferSize.toNat)) = false := by
      simp [valid]
    rw [rest]
    by_cases below : req.bufferIndex.toNat % 2 ^ 16 < pool.bufferCount.toNat
    · rw [installed.vectors _ below]
      exact decide_eq_false (refused (by omega) below)
    · rw [List.getElem?_eq_none (by rw [installed.length]; omega)]

/-- Where the buffers of the pool are in memory; files are where they are. -/
def layout (installed : Installed pool iovecs) : Layout Resource Device where
  place
    | .buffer i => ⟨.memory, pool.address i⟩
    | .file descriptor => ⟨.file descriptor, 0⟩
  within
    | .buffer i => {j | i < pool.bufferCount.toNat ∧ j < pool.bufferSize.toNat}
    | .file _ => Set.univ
  injective {a b j k} inside inside' same equal := by
    have apart {i i' : ℕ} (before : i < i') :
        i * pool.bufferSize.toNat + pool.bufferSize.toNat ≤ i' * pool.bufferSize.toNat := by
      rw [← Nat.succ_mul]
      exact Nat.mul_le_mul_right _ before
    match a, b with
    | .buffer i, .buffer i' =>
      obtain ⟨there, short⟩ := inside
      obtain ⟨there', short'⟩ := inside'
      simp only [installed.address_eq there, installed.address_eq there'] at equal
      rcases Nat.lt_trichotomy i i' with before | rfl | after
      · have gap := apart before
        omega
      · exact ⟨rfl, by omega⟩
      · have gap := apart after
        omega
    | .file descriptor, .file descriptor' =>
      cases same
      exact ⟨rfl, by simpa using equal⟩

/-- The buffers and files hold what memory and files hold. -/
structure Matches (installed : Installed pool iovecs) (a : World Resource) (w : World Device) :
    Prop where
  bytes : installed.layout.Agree a.bytes w.bytes
  position : a.position = w.position

theorem view_matches (installed : Installed pool iovecs) (w : World Device) :
    installed.Matches (pool.view w) w := by
  refine ⟨fun resource j _ => ?_, rfl⟩
  cases resource with
  | buffer i => rfl
  | file descriptor => simp [Pool.view, layout]

theorem fits_buffer (installed : Installed pool iovecs) {i start count : ℕ}
    (there : i < pool.bufferCount.toNat) (short : start + count ≤ pool.bufferSize.toNat) :
    installed.layout.Fits ⟨.buffer i, start⟩ count := by
  intro k below
  exact ⟨there, (Nat.add_lt_add_left below _).trans_le short⟩

theorem Matches.transfer {installed : Installed pool iovecs} {a : World Resource}
    {w : World Device} (same : installed.Matches a w) (op : IoOp) (descriptor : Int32)
    (off : UInt64) {i count : ℕ} (there : i < pool.bufferCount.toNat)
    (short : count ≤ pool.bufferSize.toNat) :
    installed.Matches (transfer .file a op ⟨.buffer i, 0⟩ descriptor off count)
      (transfer .file w op ⟨.memory, pool.address i⟩ descriptor off count) := by
  have inBuffer : installed.layout.Fits ⟨.buffer i, 0⟩ count :=
    installed.fits_buffer there (by omega)
  have inFile (start : ℕ) : installed.layout.Fits ⟨.file descriptor, start⟩ count :=
    fun _ _ => trivial
  have file (start : ℕ) : installed.layout.locate ⟨.file descriptor, start⟩ =
      ⟨.file descriptor, start⟩ := by
    simp [Layout.locate, layout]
  refine ⟨?_, ?_⟩
  · simp only [Ringio.transfer, same.position]
    generalize (if off = currentPosition then w.position descriptor else off.toNat) = start
    cases op with
    | read => exact file start ▸ same.bytes.copy inBuffer (inFile start)
    | write => exact file start ▸ same.bytes.copy (inFile start) inBuffer
  · simp only [Ringio.transfer, same.position]

/-- **An entry means what its request means.** For every request, whatever its
index, length, offset and file, the kernel can end the entry as it could serve
the request, with the same result and the same bytes in every buffer and file. -/
theorem execute_translate (installed : Installed pool iovecs) (files : List Int32)
    {a : World Resource} {w : World Device} (same : installed.Matches a w) (req : IoRequest)
    (outcome : Outcome) :
    Option.Rel (fun served done => installed.Matches served.1 done.1 ∧ served.2 = done.2)
      (serve files pool.bufferCount.toNat pool.bufferSize.toNat a req outcome)
      (execute files iovecs w (translate pool.toBufferPool req) outcome) := by
  have file : fileOf files (translate pool.toBufferPool req) =
      files[req.fixedFdIndex.toUInt32.toNat]? :=
    if_neg (show (0 ||| fixedFileFlag) &&& fixedFileFlag ≠ 0 by decide)
  rw [serve, execute, installed.inVector_iff, file]
  refine perform_rel same outcome fun descriptor count found accessible short => ?_
  simp only [Bool.and_eq_true, decide_eq_true_eq] at accessible
  have start : (pool.data req.bufferIndex).toNat = pool.address req.bufferIndex.toNat := by
    rw [Pool.address, UInt32.ofNat_toNat]
  simp only [translate, start]
  exact same.transfer req.op descriptor req.offset accessible.1 (short.trans accessible.2)

/-- No entry makes the kernel touch memory beside the buffers. -/
theorem execute_beside (installed : Installed pool iovecs) {w w' : World Device} {req : IoRequest}
    {outcome : Outcome} {result : Int32} {address : ℕ} (outside : pool.Beside address)
    (done : execute files iovecs w (translate pool.toBufferPool req) outcome = some (w', result)) :
    w'.bytes .memory address = w.bytes .memory address := by
  rcases perform_eq_some done with rfl | ⟨found, count, -, accessible, short, rfl⟩
  · rfl
  · rw [installed.inVector_iff] at accessible
    simp only [Bool.and_eq_true, decide_eq_true_eq] at accessible
    have beside := outside _ accessible.1
    rw [Pool.address, UInt32.ofNat_toNat] at beside
    simp only [translate] at short ⊢
    cases req.op with
    | read =>
      rw [transfer_read]
      refine fill_outside fun covered => ?_
      obtain ⟨-, from_, below⟩ := covered
      simp only at from_ below
      omega
    | write =>
      rw [transfer_write]
      refine fill_elsewhere fun same => ?_
      cases same

end Installed
end Ringio
