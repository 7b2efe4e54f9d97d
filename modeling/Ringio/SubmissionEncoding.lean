import Ringio.DrainAccounting
import Ringio.PoolLayout

/-! The entries `drain_and_submit` fills as an encoding of the requests. An
entry names its buffer twice, by address and by a 16-bit index into the vectors
registered with the kernel, and carries the token as `user_data`. -/
namespace Ringio.SqpollEngine
open BoundedFifo

/-- The request an entry was filled for. -/
def recover (sqe : Sqe) : IoRequest where
  op := sqe.opcode
  fixedFdIndex := sqe.fd
  bufferIndex := sqe.bufIndex.toUInt32
  offset := sqe.off
  length := sqe.len
  token := sqe.userData

/-- An entry says what its request says: every field in its place, one buffer by
both names, and a token that comes back in the completion. -/
structure Encodes (pool : Pool) (req : IoRequest) (sqe : Sqe) : Prop where
  opcode : sqe.opcode = req.op
  flags : sqe.flags = fixedFileFlag
  fd : sqe.fd = req.fixedFdIndex
  addr : sqe.addr = pool.base + req.bufferIndex.toUInt64 * pool.bufferSize
  len : sqe.len = req.length
  off : sqe.off = req.offset
  bufIndex : sqe.bufIndex.toNat = req.bufferIndex.toNat
  userData : sqe.userData = req.token
  recovered : recover sqe = req
  sameBuffer : pool.iovecs[sqe.bufIndex.toNat]? = some ⟨sqe.addr, pool.bufferSize⟩
  completion : ∀ res, Cqe.toCompletion ⟨sqe.userData, res⟩ = ⟨req.token, res⟩

/-- Sixteen bits are enough for an index below the registration limit. -/
theorem toNat_bufIndex (pool : BufferPool) {req : IoRequest}
    (small : req.bufferIndex.toNat < 2 ^ 16) :
    (translate pool req).bufIndex.toNat = req.bufferIndex.toNat := by
  show req.bufferIndex.toUInt16.toNat = _
  rw [UInt32.toNat_toUInt16, Nat.mod_eq_of_lt small]

theorem recover_translate (pool : BufferPool) {req : IoRequest}
    (small : req.bufferIndex.toNat < 2 ^ 16) : recover (translate pool req) = req := by
  have index : (translate pool req).bufIndex.toUInt32 = req.bufferIndex := by
    apply UInt32.toNat_inj.mp
    rw [UInt16.toNat_toUInt32, toNat_bufIndex pool small]
  rw [recover, index]
  rfl

variable {host : Host} {bufferCount bufferSize : UInt64} {pool : Pool}

theorem translate_encodes (constructed : Pool.construct host bufferCount bufferSize = .ok pool)
    (limit : bufferCount.toNat ≤ 2 ^ 14) {req : IoRequest}
    (valid : req.bufferIndex.toNat < bufferCount.toNat) :
    Encodes pool req (translate pool.toBufferPool req) := by
  have small : req.bufferIndex.toNat < 2 ^ 16 := by omega
  have index := toNat_bufIndex pool.toBufferPool small
  refine ⟨rfl, rfl, rfl, rfl, rfl, rfl, index, rfl, recover_translate _ small, ?_, fun _ => rfl⟩
  obtain ⟨-, -, -, base, -, rfl⟩ := Pool.construct_ok constructed
  have vector : (Pool.build bufferCount bufferSize base).iovecs[req.bufferIndex.toNat]? = _ :=
    Pool.iovecs_build valid req.bufferIndex.toNat_lt
  rw [index, vector, UInt32.ofNat_toNat]
  rfl

/-- **A drain call is a faithful encoding of the oldest requests.** It appends
as many entries as batch, queue and ring allow to those already there and
returns their number; the `j`-th encodes the `j`-th oldest request, which can be
read back from it. -/
theorem drain_encodes (constructed : Pool.construct host bufferCount bufferSize = .ok pool)
    (limit : bufferCount.toNat ≤ 2 ^ 14) (Q : Queue IoRequest) (U : SubmissionRing) (maxBatch : ℕ)
    (queue : Q.State) (ring : U.State)
    (valid : ∀ req ∈ Q.held queue, req.bufferIndex.toNat < bufferCount.toNat) :
    let k := min (min maxBatch (Q.held queue).length) (U.free ring)
    ∃ queue' ring' filled,
      drainAndSubmit Q U pool.toBufferPool maxBatch queue ring = some (k, queue', ring') ∧
      U.sqes ring' = U.sqes ring ++ filled ∧ filled.length = k ∧
      ∀ j < k, ∃ req sqe, (Q.held queue)[j]? = some req ∧ filled[j]? = some sqe ∧
        Encodes pool req sqe := by
  intro k
  obtain ⟨queue', ring', ran, -, entries⟩ :=
    drainAndSubmit_spec Q U pool.toBufferPool maxBatch queue ring
  refine ⟨queue', ring', _, ran, entries, ?_, fun j below => ?_⟩
  · rw [List.length_map, List.length_take]
    omega
  · have inside : j < (Q.held queue).length := by omega
    refine ⟨(Q.held queue)[j], _, List.getElem?_eq_getElem inside, ?_,
      translate_encodes constructed limit (valid _ (List.getElem_mem inside))⟩
    rw [List.getElem?_map, List.getElem?_take_of_lt below, List.getElem?_eq_getElem inside]
    rfl

/-- Two requests for a pool of two pages and one free entry. -/
theorem drain_encodes_oneFree :
    let Q := SpscRing.fifo IoRequest ⟨2, by decide, by decide⟩
    let first : IoRequest := ⟨.write, 0, 1, 4096, 512, 0xfeedfacecafebeef⟩
    ∃ pool queue ring filled, Pool.construct Pool.smallHost 2 4096 = .ok pool ∧
      Q.held queue = [first, default] ∧
      (∃ queue' ring', drainAndSubmit Q (boundedSq 1) pool.toBufferPool 4 queue ring =
        some (1, queue', ring') ∧ (boundedSq 1).sqes ring' = filled) ∧
      ∃ sqe, filled = [sqe] ∧ Encodes pool first sqe := by
  intro Q first
  let queue := (Q.tryPush (Q.tryPush Q.new first).2 default).2
  have held : Q.held queue = [first, default] := by decide
  have constructed : Pool.construct Pool.smallHost 2 4096 = .ok (Pool.build 2 4096 65536) := rfl
  obtain ⟨queue', ring', filled, ran, entries, count, encoded⟩ := drain_encodes constructed
    (by decide) Q (boundedSq 1) 4 queue ⟨[], [], by decide⟩ (by rw [held]; decide)
  obtain ⟨req, sqe, oldest, found, encodes⟩ := encoded 0 (by rw [held]; decide)
  rw [held] at ran count oldest
  cases oldest
  obtain ⟨entry, rfl⟩ := List.length_eq_one_iff.mp (count.trans (by decide))
  cases found
  exact ⟨_, queue, ⟨[], [], by decide⟩, _, constructed, held, ⟨queue', ring', ran, entries⟩, _,
    rfl, encodes⟩

end Ringio.SqpollEngine
