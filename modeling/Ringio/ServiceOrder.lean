import Mathlib.Data.List.Perm.Basic
import Ringio.ServiceRefinement

/-! The kernel finishes requests in whatever order it likes. Where no two requests
use one buffer and none writes where another reads or writes a file, the order
makes no difference: a run ends as if the requests had been served one at a time
in the order they were pushed. What is written to a file comes back from it. -/
namespace Ringio.Service
open BoundedFifo SqpollEngine Pipeline ByteCopies

/-! ## Requests that keep off each other -/

/-- The file a request names. -/
def fileNamed (files : List Int32) (req : IoRequest) : Option Int32 :=
  files[req.fixedFdIndex.toUInt32.toNat]?

/-- Two requests for different buffers, each at an offset of its own; where one of
them writes, they work on different files or on stretches that do not overlap. -/
structure Independent (files : List Int32) (a b : IoRequest) : Prop where
  buffers : a.bufferIndex ≠ b.bufferIndex
  positioned : a.offset ≠ currentPosition
  positioned' : b.offset ≠ currentPosition
  stretches : a.op = .read ∧ b.op = .read ∨ fileNamed files a ≠ fileNamed files b ∨
    a.offset.toNat + a.length.toNat ≤ b.offset.toNat ∨
    b.offset.toNat + b.length.toNat ≤ a.offset.toNat

section
variable {files : List Int32} {a b : IoRequest}

theorem Independent.symm (independent : Independent files a b) : Independent files b a := by
  refine ⟨independent.buffers.symm, independent.positioned', independent.positioned, ?_⟩
  rcases independent.stretches with reads | apart | before | after
  · exact .inl reads.symm
  · exact .inr (.inl apart.symm)
  · exact .inr (.inr (.inr before))
  · exact .inr (.inr (.inl after))

/-- Their stretches of the files. -/
theorem Independent.apart (independent : Independent files a b) {found found' : Int32} {n m : ℕ}
    (named : fileNamed files a = some found) (named' : fileNamed files b = some found')
    (short : n ≤ a.length.toNat) (short' : m ≤ b.length.toNat)
    (writes : ¬ (a.op = .read ∧ b.op = .read)) :
    (⟨.file found, a.offset.toNat⟩ : Place Resource).Apart n ⟨.file found', b.offset.toNat⟩ m := by
  rintro resource j ⟨here, from_, below⟩ ⟨here', from', below'⟩
  cases here
  cases here'
  rcases independent.stretches with reads | apart | before | after
  · exact writes reads
  · exact apart (named.trans named'.symm)
  · simp only at from' below
    omega
  · simp only at from_ below'
    omega

/-- The bytes a request moves, at its own offset. -/
theorem transfer_positioned {Obj : Type} [DecidableEq Obj] {file : Int32 → Obj} {w : World Obj}
    {op : IoOp} {buffer : Place Obj} {found : Int32} {off : UInt64} {count : ℕ}
    (positioned : off ≠ currentPosition) :
    transfer file w op buffer found off count = { w with bytes := match op with
      | .read => copy w.bytes buffer ⟨file found, off.toNat⟩ count
      | .write => copy w.bytes ⟨file found, off.toNat⟩ buffer count } := by
  cases op <;> simp only [transfer, if_neg positioned]

/-- What one moves is out of the other's way. -/
theorem transfer_comm (independent : Independent files a b) {found found' : Int32} {n m : ℕ}
    (named : fileNamed files a = some found) (named' : fileNamed files b = some found')
    (short : n ≤ a.length.toNat) (short' : m ≤ b.length.toNat) (w : World Resource) :
    transfer .file (transfer .file w a.op ⟨.buffer a.bufferIndex.toNat, 0⟩ found a.offset n) b.op
        ⟨.buffer b.bufferIndex.toNat, 0⟩ found' b.offset m =
      transfer .file (transfer .file w b.op ⟨.buffer b.bufferIndex.toNat, 0⟩ found' b.offset m)
        a.op ⟨.buffer a.bufferIndex.toNat, 0⟩ found a.offset n := by
  have apart := independent.apart named named' short short'
  have different : a.bufferIndex.toNat ≠ b.bufferIndex.toNat :=
    fun same => independent.buffers (UInt32.toNat_inj.mp same)
  have buffers {n m : ℕ} : (⟨.buffer a.bufferIndex.toNat, 0⟩ : Place Resource).Apart n
      ⟨.buffer b.bufferIndex.toNat, 0⟩ m :=
    .of_obj fun same => different (Resource.buffer.inj same)
  have mixed {i : ℕ} {descriptor : Int32} {start n m : ℕ} :
      (⟨.buffer i, 0⟩ : Place Resource).Apart n ⟨.file descriptor, start⟩ m :=
    .of_obj fun same => by cases same
  simp only [transfer_positioned independent.positioned,
    transfer_positioned independent.positioned']
  congr 1
  cases first : a.op with
  | read =>
    cases second : b.op with
    | read => exact copy_comm buffers mixed mixed
    | write =>
      have files := apart fun both => by simp [second] at both
      exact copy_comm mixed buffers files.symm
  | write =>
    have files := apart fun both => by simp [first] at both
    cases second : b.op with
    | read => exact copy_comm mixed.symm files buffers.symm
    | write => exact copy_comm files mixed.symm mixed.symm

end

/-! ## One at a time -/

section
variable {files : List Int32} {bufferCount bufferSize : ℕ}

/-- Serve one more request, and note its answer. -/
def serveNext (files : List Int32) (bufferCount bufferSize : ℕ)
    (before : Option (World Resource × Multiset (IoRequest × Int32)))
    (job : IoRequest × Outcome) : Option (World Resource × Multiset (IoRequest × Int32)) :=
  before.bind fun (w, answers) =>
    (serve files bufferCount bufferSize w job.1 job.2).map fun done =>
      (done.1, (job.1, done.2) ::ₘ answers)

/-- Serve requests one after the other. -/
def serveAll (files : List Int32) (bufferCount bufferSize : ℕ) (w : World Resource)
    (jobs : List (IoRequest × Outcome)) : Option (World Resource × Multiset (IoRequest × Int32)) :=
  jobs.foldl (serveNext files bufferCount bufferSize) (some (w, 0))

/-- Independent requests may change places. -/
theorem serveNext_comm {x y : IoRequest × Outcome} (independent : Independent files x.1 y.1)
    (before : Option (World Resource × Multiset (IoRequest × Int32))) :
    serveNext files bufferCount bufferSize (serveNext files bufferCount bufferSize before x) y =
      serveNext files bufferCount bufferSize (serveNext files bufferCount bufferSize before y) x := by
  cases before with
  | none => rfl
  | some state =>
    obtain ⟨w, answers⟩ := state
    obtain ⟨move, done, moves⟩ := perform_uniform .file (fileNamed files x.1)
      (x.1.bufferIndex.toNat < bufferCount && x.1.length.toNat ≤ bufferSize) x.1.op
      (⟨.buffer x.1.bufferIndex.toNat, 0⟩ : Place Resource) x.1.offset x.1.length x.2
    obtain ⟨move', done', moves'⟩ := perform_uniform .file (fileNamed files y.1)
      (y.1.bufferIndex.toNat < bufferCount && y.1.length.toNat ≤ bufferSize) y.1.op
      (⟨.buffer y.1.bufferIndex.toNat, 0⟩ : Place Resource) y.1.offset y.1.length y.2
    have first (w : World Resource) : serve files bufferCount bufferSize w x.1 x.2 =
      move.map fun move => (move.1 w, move.2) := done w
    have second (w : World Resource) : serve files bufferCount bufferSize w y.1 y.2 =
      move'.map fun move => (move.1 w, move.2) := done' w
    cases move with
    | none => cases move' <;> simp [serveNext, first, second]
    | some f =>
      cases move' with
      | none => simp [serveNext, first, second]
      | some f' =>
        have commute : f'.1 (f.1 w) = f.1 (f'.1 w) := by
          rcases moves _ _ rfl with same | ⟨found, n, named, short, same⟩
          · rw [same]
            rfl
          · rcases moves' _ _ rfl with same' | ⟨found', m, named', short', same'⟩
            · rw [same']
              rfl
            · rw [same, same']
              exact transfer_comm independent named named' short short' w
        simp only [serveNext, first, second, Option.bind_some, Option.map_some, commute]
        rw [Multiset.cons_swap]

/-- The order of independent requests makes no difference. -/
theorem serveAll_perm {jobs jobs' : List (IoRequest × Outcome)} (moved : jobs.Perm jobs')
    (independent : (jobs.map Prod.fst).Pairwise (Independent files)) (w : World Resource) :
    serveAll files bufferCount bufferSize w jobs = serveAll files bufferCount bufferSize w jobs' := by
  refine moved.foldl_eq' (fun x member y member' before => ?_) _
  by_cases same : x = y
  · rw [same]
  · rw [List.pairwise_map] at independent
    have symmetric : Std.Symm fun x y : IoRequest × Outcome => Independent files x.1 y.1 :=
      ⟨fun _ _ => Independent.symm⟩
    exact serveNext_comm (independent.forall member member' same) before

theorem serveAll_concat (w : World Resource) (jobs : List (IoRequest × Outcome))
    (job : IoRequest × Outcome) : serveAll files bufferCount bufferSize w (jobs ++ [job]) =
      serveNext files bufferCount bufferSize (serveAll files bufferCount bufferSize w jobs) job :=
  List.foldl_append

/-- Every request is answered once. -/
theorem serveAll_answers {w w' : World Resource} {jobs : List (IoRequest × Outcome)}
    {answers : Multiset (IoRequest × Int32)}
    (served : serveAll files bufferCount bufferSize w jobs = some (w', answers)) :
    answers.map Prod.fst = tally Prod.fst jobs := by
  induction jobs using List.reverseRecOn generalizing w' answers with
  | nil =>
    cases served
    rfl
  | append_singleton jobs job ih =>
    rw [serveAll_concat] at served
    obtain ⟨⟨w₁, before⟩, first, last⟩ := Option.bind_eq_some_iff.mp served
    obtain ⟨done, -, same⟩ := Option.map_eq_some_iff.mp last
    cases same
    rw [Multiset.map_cons, ih first, tally_append, tally_cons, tally_nil, add_zero, add_comm,
      Multiset.singleton_add]

/-! ## Runs of the service -/

/-- The result of a request that has been carried out. -/
def resultOf (entry : IoRequest × Option Int32) : Option (IoRequest × Int32) :=
  entry.2.map fun result => (entry.1, result)

@[simp] theorem resultOf_none (req : IoRequest) : resultOf (req, none) = none := rfl

@[simp] theorem resultOf_some (req : IoRequest) (result : Int32) :
    resultOf (req, some result) = some (req, result) := rfl

/-- The requests carried out, with their results. -/
def carried (a : State) : Multiset (IoRequest × Int32) :=
  ↑(a.serving.filterMap resultOf) + ↑a.answered

/-- One more of the list comes to be read. -/
theorem filterMap_set {α β : Type} {f : α → Option β} {list : List α} {position : ℕ} {old new : α}
    {value : β} (found : list[position]? = some old) (before : f old = none)
    (after : f new = some value) :
    ((list.set position new).filterMap f : Multiset β) = value ::ₘ ↑(list.filterMap f) := by
  obtain ⟨inside, rfl⟩ := List.getElem?_eq_some_iff.mp found
  have split : list = list.take position ++ list[position] :: list.drop (position + 1) := by
    rw [← List.drop_eq_getElem_cons inside, List.take_append_drop]
  have changed : list.set position new =
      list.take position ++ new :: list.drop (position + 1) := by
    rw [List.set_eq_take_append_cons_drop, if_pos inside]
  rw [changed]
  conv => rhs; rw [split]
  simp only [List.filterMap_append, List.filterMap_cons, before, after]
  exact Multiset.coe_eq_coe.mpr List.perm_middle

variable {a a' : State} {world : World Resource}

/-- A run without writes of the client serves its requests in some order. -/
theorem run_serves
    (reached : (machine files bufferCount bufferSize world).Reachable byService a) :
    ∃ jobs, serveAll files bufferCount bufferSize world jobs = some (a.world, carried a) := by
  refine reached.invariant (P := fun a => ∃ jobs,
    serveAll files bufferCount bufferSize world jobs = some (a.world, carried a)) ⟨[], rfl⟩ ?_
  rintro a action a' ⟨jobs, served⟩ moved allowed
  simp only [machine] at moved
  cases action with
  | submit req =>
    cases moved
    exact ⟨jobs, served⟩
  | lose position =>
    simp only [State.next] at moved
    split at moved
    · cases moved
    · cases moved
      exact ⟨jobs, served⟩
  | begin =>
    simp only [State.next] at moved
    split at moved
    · cases moved
    · cases moved
      refine ⟨jobs, served.trans ?_⟩
      simp [carried, List.filterMap_cons]
  | carryOut position outcome =>
    simp only [State.next] at moved
    split at moved
    · rename_i req found
      obtain ⟨done, answer, rfl⟩ := Option.map_eq_some_iff.mp moved
      refine ⟨jobs ++ [(req, outcome)], ?_⟩
      have more := filterMap_set found (resultOf_none req) (resultOf_some req done.2)
      rw [serveAll_concat, served]
      simp only [serveNext, Option.bind_some, answer, Option.map_some, carried, more,
        Multiset.cons_add]
    · cases moved
  | answer position =>
    simp only [State.next] at moved
    split at moved
    · rename_i req result found
      cases moved
      refine ⟨jobs, served.trans ?_⟩
      obtain ⟨inside, same⟩ := List.getElem?_eq_some_iff.mp found
      have split := (List.getElem_cons_eraseIdx_perm inside).filterMap resultOf
      rw [same, List.filterMap_cons_some (resultOf_some req result)] at split
      rw [carried, carried, ← Multiset.coe_eq_coe.mpr split, ← Multiset.cons_coe,
        ← Multiset.coe_add, Multiset.cons_add, ← Multiset.add_cons, ← Multiset.singleton_add,
        add_comm ({(req, result)} : Multiset _)]
      rfl
    · cases moved
  | fill index start values => exact allowed.elim

/-- When everything is answered, the requests carried out are those submitted. -/
theorem carried_all (conserved : Conserved a) (all : a.answered.length = a.submitted.length) :
    carried a = a.answered ∧ tally id a.submitted = tally Prod.fst a.answered := by
  have counted := congrArg Multiset.card conserved
  simp only [Multiset.card_add, card_tally] at counted
  have queued : a.queued = [] := List.length_eq_zero_iff.mp (by omega)
  have serving : a.serving = [] := List.length_eq_zero_iff.mp (by omega)
  have lost : a.lost = [] := List.length_eq_zero_iff.mp (by omega)
  rw [Conserved, queued, serving, lost] at conserved
  exact ⟨by simp [carried, serving], by simpa using conserved⟩

end

/-! ## Runs of the pipeline -/

section
variable {Q : Queue IoRequest} {R : Queue IoCompletion} {entries : ℕ} {pool : Pool}
  {cqEntries : UInt32} {files : List Int32} {iovecs : List Iovec} {s s' : Plant Q R entries}

instance (s : Plant Q R entries) (command : Command) (s' : Plant Q R entries) :
    Decidable (byPipeline s command s') :=
  match command with
  | .stage _ => isTrue trivial
  | .carryOut _ _ => isTrue trivial
  | .fill _ _ _ => isFalse id

end

/-- Two buffers are written to a file; the kernel takes the second first. -/
def overtaken : List Command :=
  [.stage (.push ⟨.write, 0, 0, 0, 1, 111⟩), .stage (.push ⟨.write, 0, 1, 1, 1, 222⟩),
    .stage (.drain 4), .stage .runDrain, .stage .runDrain, .stage .runDrain, .stage .runDrain,
    .stage .runDrain, .stage .runDrain, .stage .consume, .stage .consume,
    .carryOut 1 (.moved 1 none), .stage (.complete 1 1), .carryOut 0 (.moved 1 none),
    .stage (.complete 0 1)]

section
variable {Q : Queue IoRequest} {R : Queue IoCompletion} {entries : ℕ} {pool : Pool}
  {cqEntries : UInt32} {files : List Int32} {iovecs : List Iovec} {s s' : Plant Q R entries}

theorem carryOut_eq_some {position : ℕ} {outcome : Outcome}
    (moved : s.next pool cqEntries files iovecs (.carryOut position outcome) = some s') :
    ∃ sqe result, s.stages.inFlight[position]? = some sqe ∧
      execute files iovecs s.world sqe outcome = some (s'.world, result) := by
  simp only [Plant.next] at moved
  split at moved
  · rename_i sqe found waiting
    obtain ⟨done, carried, rfl⟩ := Option.map_eq_some_iff.mp moved
    exact ⟨sqe, done.2, found, carried⟩
  · cases moved

/-- Steps that write to no part of this stretch of this file. -/
def spares (files : List Int32) (descriptor : Int32) (start n : ℕ) (s : Plant Q R entries)
    (command : Command) (_ : Plant Q R entries) : Prop :=
  match command with
  | .carryOut position _ => ∀ sqe, s.stages.inFlight[position]? = some sqe →
    sqe.opcode = .write → fileOf files sqe = some descriptor → sqe.off ≠ currentPosition ∧
      (sqe.off.toNat + sqe.len.toNat ≤ start ∨ start + n ≤ sqe.off.toNat)
  | _ => True

instance (files : List Int32) (descriptor : Int32) (start n : ℕ) (s : Plant Q R entries)
    (command : Command) (s' : Plant Q R entries) :
    Decidable (spares files descriptor start n s command s') :=
  match command with
  | .carryOut position _ => inferInstanceAs (Decidable (∀ sqe ∈ s.stages.inFlight[position]?, _))
  | .stage _ => isTrue trivial
  | .fill _ _ _ => isTrue trivial

/-- They leave it as it is. -/
theorem step_spares {descriptor : Int32} {start n j : ℕ} {command : Command} (inside : j < n)
    (moved : s.next pool cqEntries files iovecs command = some s')
    (spared : spares files descriptor start n s command s') :
    s'.world.bytes (.file descriptor) (start + j) = s.world.bytes (.file descriptor) (start + j) := by
  have other : Device.file descriptor ≠ .memory := fun same => by cases same
  cases command with
  | stage command =>
    simp only [Plant.next] at moved
    split at moved
    · obtain ⟨stages, -, rfl⟩ := Option.map_eq_some_iff.mp moved
      rfl
    · cases moved
  | fill index start values =>
    simp only [Plant.next] at moved
    split at moved
    · cases moved
      dsimp only
      rw [fill_elsewhere]
      exact other
    · cases moved
  | carryOut position outcome =>
    obtain ⟨sqe, result, found, carried⟩ := carryOut_eq_some moved
    rcases perform_eq_some carried with same | ⟨file, count, named, -, short, same⟩
    · rw [same]
    · rw [same]
      cases writes : sqe.opcode with
      | read =>
        rw [transfer_read]
        refine fill_elsewhere ?_
        exact other
      | write =>
        rw [transfer_write]
        refine fill_outside fun covered => ?_
        obtain ⟨here, from_, below⟩ := covered
        cases here
        obtain ⟨positioned, apart⟩ := spared sqe found writes named
        simp only [if_neg positioned] at from_ below
        omega

end

end Ringio.Service
