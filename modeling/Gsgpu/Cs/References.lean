import Gsgpu.Cs.Parser
import Gsgpu.Lib.Zoom
import Mathlib.Algebra.BigOperators.Group.List.Basic
import Mathlib.Algebra.Group.Pi.Basic
import Mathlib.Data.Int.Basic
import Mathlib.Algebra.GroupWithZero.Nat
import Mathlib.Algebra.Ring.Int.Defs

/-! The command submission ioctl with an account of the references that it takes and gives back.
The parser is the one of `Gsgpu.Cs.Parser`; beside it stands which objects its pointers name. -/
namespace Gsgpu.Cs.References

open Prog

/-- Where a `struct gsgpu_bo_list` comes from. -/
inductive ListId
  | handle (h : UInt32)
  | chunk (i : ℕ)
  | empty
deriving DecidableEq

/-- What is counted: references, a lock that is held, jobs, and words of memory. The contexts and
their locks go by their ids in the file. The fence is the finished fence of the job. -/
inductive Obj
  | ctx (id : UInt32)
  | ctxLock (id : UInt32)
  | boList (l : ListId)
  | gem (id : ℕ)
  | bo (id : ℕ)
  | syncobj (id : ℕ)
  | depFence (k i : ℕ)
  | fence
  | job
  | memory
deriving DecidableEq

/-- The objects that the parser's pointers name. -/
structure Owned where
  ctx : Option UInt32
  boList : Option ListId
  ufRobj : Option ℕ
  /-- The words of each `p->chunks[i].kdata`. -/
  kdata : List ℕ
  /-- How many of these `free_partial_kdata` would free. -/
  partialKdata : ℕ
  postDepSyncobjs : List ℕ
  /-- The words of `p->post_dep_syncobjs`. -/
  postDepSize : ℕ
  fence : Bool

def Owned.zero : Owned := ⟨none, none, none, [], 0, [], 0, false⟩

structure State where
  parser : Parser
  own : Owned
  refs : Obj → ℤ

/-- What the functions that the ioctl calls answer, and which objects the handles name. -/
structure RefEnv extends Env where
  boId : ℕ → UInt32 → ℕ
  syncobjId : ℕ → ℕ → UInt32 → ℕ
  /-- `gsgpu_bo_list_get` has found the list, and nobody holds a reference to it any more. -/
  boListDying : Bool
  /-- How many buffers are on `p->validated` at the end. -/
  numValidated : ℕ
  seq : ℕ
  /-- `gsgpu_ctx_add_fence` returns 0 at its end. -/
  ctxAddFence_eq : ctxAddFence = .ok seq

abbrev RefM := Prog Fault Errno State

def parserOf : Part State Parser := ⟨State.parser, fun p s => { s with parser := p }, fun _ _ => rfl⟩

/-- Code that takes no reference and gives none back. -/
abbrev run {α : Type} (x : CsM α) : RefM α := zoom parserOf x

def State.add (s : State) (o : Obj) (n : ℤ) : State :=
  { s with refs := s.refs + Pi.single o n }

def State.setOwn (s : State) (f : Owned → Owned) : State := { s with own := f s.own }

/-- Take `n` references to an object. -/
def take (o : Obj) (n : ℤ) : RefM Unit := modify fun s => s.add o n

/-- Give a reference back. -/
def put (o : Obj) : RefM Unit := take o (-1)

def setOwn (f : Owned → Owned) : RefM Unit := modify fun s => s.setOwn f

/-- `gsgpu_bo_unref(&p->uf_entry.robj)`. -/
def unrefUf (id : ℕ) : RefM Unit := do
  put (.bo id)
  run (modify fun p => { p with ufRobj := none })
  setOwn fun o => { o with ufRobj := none }

/-- `gsgpu_cs_user_fence_chunk`. -/
def csUserFenceChunk (env : RefEnv) (i : ℕ) (c : Chunk) : RefM UInt32 := do
  let handle ← run (readWord c 0)
  match env.gemObjectLookup i handle with
  | none => fail .einval
  | some bo =>
    let id := env.boId i handle
    take (.gem id) 1
    take (.bo id) 1
    run (modify fun p => { p with ufRobj := some bo })
    setOwn fun o => { o with ufRobj := some id }
    put (.gem id)
    if bo.size ≠ pageSize then
      unrefUf id
      fail .einval
    else do
      let offset ← run (readWord c 1)
      if bo.size < ufEnd offset || bo.usermm then
        unrefUf id
        fail .einval
      else pure offset

/-- `gsgpu_cs_bo_handles_chunk`; the array of entries is freed in any case. -/
def csBoHandlesChunk (env : RefEnv) (i : ℕ) (c : Chunk) : RefM Unit := do
  let boInfoPtr ← run (readQword c 4)
  let boNumber ← run (readWord c 2)
  let boInfoSize ← run (readWord c 3)
  outcome (env.createListEntryArray i boNumber boInfoSize boInfoPtr)
  take .memory boNumber.toNat
  ensuring
    (do
      let userptrs ← outcome (env.boListUserptrs i boNumber)
      take (.boList (.chunk i)) 1
      run (modify fun p => { p with boList := some (boListCreate boNumber.toNat userptrs) })
      setOwn fun o => { o with boList := some (.chunk i) })
    (take .memory (-boNumber.toNat))

/-- The switch of `gsgpu_cs_parser_init`, on a chunk that has been copied in. -/
def parserInitSwitch (env : RefEnv) (i : ℕ) (c : Chunk) (numIbs : ℕ) (ufOffset : UInt32) :
    RefM (ℕ × UInt32) :=
  if c.chunkId = chunkIdIb then pure (numIbs + 1, ufOffset)
  else if c.chunkId = chunkIdFence then
    if c.lengthDw.toNat * 4 < 8 then fail .einval
    else do
      let ufOffset ← csUserFenceChunk env i c
      pure (numIbs, ufOffset)
  else if c.chunkId = chunkIdBoHandles then
    if c.lengthDw.toNat * 4 < 24 then fail .einval
    else do
      csBoHandlesChunk env i c
      pure (numIbs, ufOffset)
  else if c.chunkId = chunkIdDependencies ∨ c.chunkId = chunkIdSyncobjIn ∨
      c.chunkId = chunkIdSyncobjOut then
    pure (numIbs, ufOffset)
  else fail .einval

/-- The body of the loop of `gsgpu_cs_parser_init`. -/
def parserInitChunk (env : RefEnv) (i : ℕ) (c : Chunk) (numIbs : ℕ) (ufOffset : UInt32) :
    RefM (ℕ × UInt32) := do
  -- the two errors before the chunk has its data step back to the chunk before
  setOwn fun o => { o with partialKdata := i }
  require (env.copyChunk i) .efault
  require (env.kdataOk i) .enomem
  take .memory c.lengthDw.toNat
  setOwn fun o => { o with kdata := o.kdata ++ [c.lengthDw.toNat], partialKdata := i + 1 }
  require (env.copyData i) .efault
  parserInitSwitch env i c numIbs ufOffset

def parserInitLoop (env : RefEnv) : ℕ → List Chunk → ℕ → UInt32 → RefM (ℕ × UInt32)
  | _, [], numIbs, ufOffset => pure (numIbs, ufOffset)
  | i, c :: cs, numIbs, ufOffset => do
    let (numIbs, ufOffset) ← parserInitChunk env i c numIbs ufOffset
    parserInitLoop env (i + 1) cs numIbs ufOffset

/-- `gsgpu_job_alloc`. -/
def jobAlloc (env : RefEnv) (numIbs : ℕ) : RefM Unit := do
  run (Cs.jobAlloc env.toEnv numIbs)
  take .job 1

/-- The labels `free_all_kdata` and `free_partial_kdata`. -/
def freeKdata (s : State) : State :=
  let words := (s.own.kdata.take s.own.partialKdata).sum + s.parser.nchunks
  { parser := Cs.freeKdata s.parser
    own := { s.own with kdata := [], partialKdata := 0 }
    refs := s.refs + Pi.single .memory (-(words : ℤ)) }

/-- The rest of `gsgpu_cs_parser_init` behind the loop. -/
def vramLostCheck (env : Env) (ufOffset : UInt32) : CsM Unit := do
  let ctx ← gets (·.ctx)
  let ctx ← deref .ctx ctx
  require (ctx.vramLostCounter = env.vramLostCounter) .ecanceled
  let robj ← gets (·.ufRobj)
  if robj.isSome then
    modify fun p =>
      { p with job := p.job.map fun j => { j with ufAddr := ufOffset.toNat } }

/-- `gsgpu_cs_parser_init`, with the array of chunk pointers allocated. -/
def parserInitChunks (env : RefEnv) (req : Request) : RefM Unit := do
  match env.ctxGet req.ctxId with
  | none => fail .einval
  | some ctx =>
    take (.ctx req.ctxId) 1
    run (modify fun p => { p with ctx := some ctx })
    setOwn fun o => { o with ctx := some req.ctxId }
    take (.ctxLock req.ctxId) 1
    require (!ctx.guilty) .ecanceled
    require env.copyChunkArray .efault
    run (modify fun p => { p with nchunks := req.chunks.length })
    require env.chunksOk .enomem
    take .memory req.chunks.length
    run (modify fun p => { p with chunks := some req.chunks })
    onError freeKdata do
      let (numIbs, ufOffset) ← parserInitLoop env 0 req.chunks 0 0
      jobAlloc env numIbs
      run (vramLostCheck env.toEnv ufOffset)

/-- `gsgpu_cs_parser_init`. -/
def csParserInit (env : RefEnv) (req : Request) : RefM Unit := do
  if req.chunks.length = 0 then pure ()
  else do
    require env.chunkArrayOk .enomem
    take .memory req.chunks.length
    ensuring (parserInitChunks env req) (take .memory (-req.chunks.length))

/-- The list of `gsgpu_cs_parser_bos`. `gsgpu_bo_list_get` leaves `p->bo_list` at the list that it
has found, also when it could not take a reference. -/
def parserBoList (env : RefEnv) (req : Request) : RefM Unit := do
  let boList ← run (gets (·.boList))
  if req.boListHandle ≠ 0 then
    if boList.isSome then fail .einval
    else do
      let list ← onError
        (fun s => s.setOwn fun o =>
          { o with boList := if env.boListDying then some (.handle req.boListHandle) else none })
        (outcome (env.boListGet req.boListHandle))
      take (.boList (.handle req.boListHandle)) 1
      run (modify fun p => { p with boList := some list })
      setOwn fun o => { o with boList := some (.handle req.boListHandle) }
  else if boList.isNone then do
    outcome env.boListEmpty
    take (.boList .empty) 1
    run (modify fun p => { p with boList := some (boListCreate 0 0) })
    setOwn fun o => { o with boList := some .empty }
  else pure ()

/-- `gsgpu_cs_parser_bos` behind the list. -/
def parserBosReserve (env : Env) : CsM Unit := do
  let boList ← gets (·.boList)
  let boList ← deref .boList boList
  parserMn env boList
  outcome env.reserveAndValidate
  let uf ← gets (·.ufRobj)
  match uf with
  | none => pure ()
  | some uf =>
    let job ← gets (·.job)
    let job ← deref .job job
    modify fun p => { p with job := some { job with ufAddr := job.ufAddr + uf.gpuOffset } }
    outcome env.allocGart

/-- `gsgpu_cs_parser_bos`. -/
def csParserBos (env : RefEnv) (req : Request) : RefM Unit := do
  parserBoList env req
  run (parserBosReserve env.toEnv)

/-- What is done with the result of `gsgpu_ctx_get_fence`. Without a fence the context is not put. -/
def addFenceDep (env : RefEnv) (k i : ℕ) (ctxId : UInt32) (fence : Bool) : RefM Unit :=
  if fence then do
    take (.depFence k i) 1
    ensuring (run (Cs.addFenceDep env.toEnv k i fence)) do
      put (.depFence k i)
      put (.ctx ctxId)
  else pure ()

/-- The loop of `gsgpu_cs_process_fence_dep`. -/
def fenceDepLoop (env : RefEnv) (k : ℕ) (c : Chunk) : ℕ → ℕ → RefM Unit
  | 0, _ => pure ()
  | n + 1, i => do
    let ctxId ← run (readWord c (6 * i + 3))
    match env.depCtxGet k i ctxId with
    | none => fail .einval
    | some _ =>
      take (.ctx ctxId) 1
      let ipType ← run (readWord c (6 * i))
      let ipInstance ← run (readWord c (6 * i + 1))
      let ringNo ← run (readWord c (6 * i + 2))
      let _ ← onError (fun s => s.add (.ctx ctxId) (-1))
        (outcome (env.queueMgrMap k i ipType ipInstance ringNo))
      let handle ← run (readQword c (6 * i + 4))
      let fence ← onError (fun s => s.add (.ctx ctxId) (-1)) (outcome (env.ctxGetFence k i handle))
      addFenceDep env k i ctxId fence
      fenceDepLoop env k c n (i + 1)

/-- The loop of `gsgpu_cs_process_syncobj_in_dep`. -/
def syncobjInLoop (env : RefEnv) (k : ℕ) (c : Chunk) : ℕ → ℕ → RefM Unit
  | 0, _ => pure ()
  | n + 1, i => do
    let handle ← run (readWord c i)
    outcome (env.syncobjFindFence k i handle)
    take (.depFence k i) 1
    ensuring (run (Cs.addFenceDep env.toEnv k i true)) (put (.depFence k i))
    syncobjInLoop env k c n (i + 1)

/-- The loop of `gsgpu_cs_process_syncobj_out_dep`. -/
def syncobjOutLoop (env : RefEnv) (k : ℕ) (c : Chunk) : ℕ → ℕ → RefM Unit
  | 0, _ => pure ()
  | n + 1, i => do
    let handle ← run (readWord c i)
    require (env.syncobjFind k i handle) .einval
    take (.syncobj (env.syncobjId k i handle)) 1
    run (modify fun p => { p with numPostDepSyncobjs := p.numPostDepSyncobjs + 1 })
    setOwn fun o =>
      { o with postDepSyncobjs := o.postDepSyncobjs ++ [env.syncobjId k i handle] }
    syncobjOutLoop env k c n (i + 1)

/-- `p->post_dep_syncobjs` becomes what `kmalloc_array` returns. -/
def allocPostDep (env : RefEnv) (k : ℕ) (c : Chunk) : RefM Unit := do
  let size := if env.postDepOk k then numDeps c 4 else 0
  take .memory size
  setOwn fun o => { o with postDepSyncobjs := [], postDepSize := size }

/-- The dependencies of one chunk. -/
def csDependency (env : RefEnv) (k : ℕ) (c : Chunk) : RefM Unit :=
  if c.chunkId = chunkIdDependencies then fenceDepLoop env k c (numDeps c 24) 0
  else if c.chunkId = chunkIdSyncobjIn then syncobjInLoop env k c (numDeps c 4) 0
  else if c.chunkId = chunkIdSyncobjOut then do
    allocPostDep env k c
    run (modify fun p => { p with numPostDepSyncobjs := 0 })
    require (env.postDepOk k) .enomem
    syncobjOutLoop env k c (numDeps c 4) 0
  else pure ()

/-- `gsgpu_cs_dependencies`. -/
def csDependencies (env : RefEnv) : ℕ → List Chunk → RefM Unit
  | _, [] => pure ()
  | k, c :: cs => do
    csDependency env k c
    csDependencies env (k + 1) cs

/-- `gsgpu_ctx_add_fence`: the context's ring holds the fence. -/
def ctxAddFence (env : RefEnv) : RefM ℕ := do
  let seq ← outcome env.ctxAddFence
  take .fence 1
  pure seq

/-- `gsgpu_cs_post_dependencies`: every syncobj holds the fence. -/
def csPostDependencies : RefM Unit := do
  let syncobjs ← gets (·.own.postDepSyncobjs.length)
  take .fence syncobjs

/-- The parser gives its job away. -/
def takeJob : CsM Job := do
  let job ← gets (·.job)
  modify fun p => { p with job := none }
  deref .job job

/-- No userptr BO of the list has lost its pages. -/
def userptrPages (env : Env) : CsM Unit := do
  let boList ← gets (·.boList)
  let boList ← deref .boList boList
  require (!(decide (boList.firstUserptr ≠ boList.numEntries) && env.userptrNeedsPages))
    .erestartsys

/-- `gsgpu_cs_submit`. `drm_sched_job_init` makes the fence with the job's reference. -/
def csSubmit (env : RefEnv) : RefM Job := do
  let ring ← run (gets (·.ring))
  let _ ← run (deref .ring ring)
  let ctx ← run (gets (·.ctx))
  let _ ← run (deref .ctx ctx)
  let job ← run takeJob
  onError (fun s => s.add .job (-1)) (outcome env.schedJobInit)
  take .fence 1
  let notifier ← run (gets (·.mn))
  run (mnLock notifier)
  onError (fun s => (s.add .fence (-1)).add .job (-1)) (run (userptrPages env.toEnv))
  take .fence 1
  setOwn fun o => { o with fence := true }
  let _ ← onError (fun s => (s.add .fence (-2)).add .job (-1)) (ctxAddFence env)
  csPostDependencies
  -- `ttm_eu_fence_buffer_objects`
  take .fence env.numValidated
  pure job

/-- What `gsgpu_cs_parser_fini` gives back: it looks at each pointer of the parser. -/
def State.held (s : State) : Obj → ℤ :=
  s.own.ctx.elim 0 (fun id => Pi.single (.ctx id) 1 + Pi.single (.ctxLock id) 1) +
  s.own.boList.elim 0 (fun l => Pi.single (.boList l) 1) +
  s.own.ufRobj.elim 0 (fun id => Pi.single (.bo id) 1) +
  (s.own.postDepSyncobjs.map fun id => Pi.single (.syncobj id) 1).sum +
  Pi.single .memory (s.own.postDepSize : ℤ) +
  s.parser.chunks.elim 0 (fun cs =>
    Pi.single .memory ((s.own.kdata.take s.parser.nchunks).sum + cs.length : ℕ)) +
  Pi.single .fence (s.own.fence.toNat : ℤ) +
  Pi.single .job (s.parser.job.isSome.toNat : ℤ)

/-- `gsgpu_cs_parser_fini`. -/
def csParserFini : RefM Unit := do
  run Cs.csParserFini
  modify fun s => { s with refs := s.refs - s.held }

/-- The passes of `gsgpu_cs_ioctl`. -/
def csPasses (env : RefEnv) (req : Request) : RefM Job := do
  csParserInit env req
  run (csIbFill env.toEnv)
  csParserBos env req
  let chunks ← run parserChunks
  csDependencies env 0 chunks
  run traceCs
  run (csIbVmChunk env.toEnv)
  csSubmit env

/-- `gsgpu_cs_ioctl`. -/
def csIoctl (env : RefEnv) (req : Request) : RefM Job :=
  if env.accelWorking then ensuring (csPasses env req) csParserFini else fail .ebusy

/-- The parser at the start, with the reference counts as they are. -/
def State.start (refs : Obj → ℤ) : State := ⟨.zero, .zero, refs⟩

section Shows

variable (env : RefEnv)

private theorem shows_run {α : Type} (y : CsM α) : Shows parserOf (run y) y := Shows.zoom y

theorem csUserFenceChunk_shows (i : ℕ) (c : Chunk) :
    Shows parserOf (csUserFenceChunk env i c) (Cs.csUserFenceChunk env.toEnv i c) := by
  refine Shows.bind (shows_run _) fun handle => ?_
  cases env.gemObjectLookup i handle with
  | none => exact .fail _
  | some bo =>
    have hunref : ∀ id, Shows parserOf (unrefUf id >>= fun _ => (fail .einval : RefM UInt32))
        (modify (fun p => { p with ufRobj := none }) >>= fun _ => fail .einval) := fun id =>
      Shows.bind (Shows.silent (by exact fun _ => rfl) (Shows.then_silent (by exact fun _ => rfl) (shows_run _)))
        fun _ => .fail _
    refine Shows.silent (by exact fun _ => rfl) (Shows.silent (by exact fun _ => rfl) ?_)
    refine Shows.bind (shows_run _) fun _ => ?_
    refine Shows.silent (by exact fun _ => rfl) (Shows.silent (by exact fun _ => rfl) ?_)
    refine Shows.ite (hunref _) (Shows.bind (shows_run _) fun offset => ?_)
    exact Shows.ite (hunref _) (.pure offset)

theorem csBoHandlesChunk_shows (i : ℕ) (c : Chunk) :
    Shows parserOf (csBoHandlesChunk env i c) (Cs.csBoHandlesChunk env.toEnv i c) := by
  refine Shows.bind (shows_run _) fun boInfoPtr => Shows.bind (shows_run _) fun boNumber =>
    Shows.bind (shows_run _) fun boInfoSize => Shows.bind (.outcome _) fun _ => ?_
  refine Shows.silent (by exact fun _ => rfl) (Shows.ensuring_silent (by exact fun _ => rfl) ?_)
  refine Shows.bind (.outcome _) fun userptrs => Shows.silent (by exact fun _ => rfl) ?_
  exact Shows.then_silent (by exact fun _ => rfl) (shows_run _)

theorem parserInitChunk_shows (i : ℕ) (c : Chunk) (numIbs : ℕ) (ufOffset : UInt32) :
    Shows parserOf (parserInitChunk env i c numIbs ufOffset)
      (Cs.parserInitChunk env.toEnv i c numIbs ufOffset) := by
  refine Shows.silent (by exact fun _ => rfl) ?_
  refine Shows.bind (.require _ _) fun _ => Shows.bind (.require _ _) fun _ => ?_
  refine Shows.silent (by exact fun _ => rfl) (Shows.silent (by exact fun _ => rfl) ?_)
  refine Shows.bind (.require _ _) fun _ => Shows.ite (.pure _) ?_
  refine Shows.ite (Shows.ite (.fail _) ?_) (Shows.ite (Shows.ite (.fail _) ?_) ?_)
  · exact Shows.bind (csUserFenceChunk_shows env i c) fun _ => .pure _
  · exact Shows.bind (csBoHandlesChunk_shows env i c) fun _ => .pure _
  · exact Shows.ite (.pure _) (.fail _)

theorem parserInitLoop_shows (cs : List Chunk) (i numIbs : ℕ) (ufOffset : UInt32) :
    Shows parserOf (parserInitLoop env i cs numIbs ufOffset)
      (Cs.parserInitLoop env.toEnv i cs numIbs ufOffset) := by
  induction cs generalizing i numIbs ufOffset with
  | nil => exact .pure _
  | cons c cs ih =>
    exact Shows.bind (parserInitChunk_shows env i c numIbs ufOffset) fun a => ih _ _ _

theorem csParserInit_shows (req : Request) :
    Shows parserOf (csParserInit env req) (Cs.csParserInit env.toEnv req) := by
  refine Shows.ite (.pure _) (Shows.bind (.require _ _) fun _ => ?_)
  refine Shows.silent (by exact fun _ => rfl) (Shows.ensuring_silent (by exact fun _ => rfl) ?_)
  unfold parserInitChunks
  cases env.ctxGet req.ctxId with
  | none => exact .fail _
  | some ctx =>
    refine Shows.silent (by exact fun _ => rfl) (Shows.bind (shows_run _) fun _ => ?_)
    refine Shows.silent (by exact fun _ => rfl) (Shows.silent (by exact fun _ => rfl) ?_)
    refine Shows.bind (.require _ _) fun _ => Shows.bind (.require _ _) fun _ =>
      Shows.bind (shows_run _) fun _ => Shows.bind (.require _ _) fun _ => ?_
    refine Shows.silent (by exact fun _ => rfl) (Shows.bind (shows_run _) fun _ => ?_)
    refine Shows.onError (by exact fun _ => rfl) (Shows.bind (parserInitLoop_shows env _ _ _ _) fun _ => ?_)
    exact Shows.bind (Shows.then_silent (by exact fun _ => rfl) (shows_run _)) fun _ => shows_run _

theorem parserBoList_shows (req : Request) :
    Shows parserOf (parserBoList env req) (Cs.parserBoList env.toEnv req) := by
  refine Shows.bind (shows_run _) fun boList => Shows.ite (Shows.ite (.fail _) ?_) ?_
  · refine Shows.bind (Shows.onError_silent (by exact fun _ => rfl) (.outcome _)) fun list => ?_
    exact Shows.silent (by exact fun _ => rfl) (Shows.then_silent (by exact fun _ => rfl) (shows_run _))
  · refine Shows.ite (Shows.bind (.outcome _) fun _ => ?_) (.pure _)
    exact Shows.silent (by exact fun _ => rfl) (Shows.then_silent (by exact fun _ => rfl) (shows_run _))

theorem csParserBos_shows (req : Request) :
    Shows parserOf (csParserBos env req) (Cs.csParserBos env.toEnv req) :=
  Shows.bind (parserBoList_shows env req) fun _ => shows_run _

theorem fenceDepLoop_shows (k : ℕ) (c : Chunk) (n i : ℕ) :
    Shows parserOf (fenceDepLoop env k c n i) (Cs.fenceDepLoop env.toEnv k c n i) := by
  induction n generalizing i with
  | zero => exact .pure _
  | succ n ih =>
    refine Shows.bind (shows_run _) fun ctxId => ?_
    cases env.depCtxGet k i ctxId with
    | none => exact .fail _
    | some _ =>
      refine Shows.silent (by exact fun _ => rfl) ?_
      refine Shows.bind (shows_run _) fun _ => Shows.bind (shows_run _) fun _ =>
        Shows.bind (shows_run _) fun _ => ?_
      refine Shows.bind (Shows.onError_silent (by exact fun _ => rfl) (.outcome _)) fun _ =>
        Shows.bind (shows_run _) fun _ =>
        Shows.bind (Shows.onError_silent (by exact fun _ => rfl) (.outcome _)) fun fence => ?_
      refine Shows.bind ?_ fun _ => ih (i + 1)
      cases fence with
      | false => exact .pure _
      | true =>
        refine Shows.silent (by exact fun _ => rfl) ?_
        exact Shows.ensuring_silent (f := fun s => (s.add (.depFence k i) (-1)).add (.ctx ctxId) (-1))
          (by exact fun _ => rfl) (shows_run _)

theorem syncobjInLoop_shows (k : ℕ) (c : Chunk) (n i : ℕ) :
    Shows parserOf (syncobjInLoop env k c n i) (Cs.syncobjInLoop env.toEnv k c n i) := by
  induction n generalizing i with
  | zero => exact .pure _
  | succ n ih =>
    have hassoc : Cs.syncobjInLoop env.toEnv k c (n + 1) i = readWord c i >>= fun handle =>
        outcome (env.syncobjFindFence k i handle) >>= fun _ =>
          Cs.addFenceDep env.toEnv k i true >>= fun _ => Cs.syncobjInLoop env.toEnv k c n (i + 1) := by
      simp only [Cs.syncobjInLoop, Cs.addFenceDep, if_true, Prog.bind_assoc]
    rw [hassoc]
    refine Shows.bind (shows_run _) fun handle => Shows.bind (.outcome _) fun _ => ?_
    refine Shows.silent (by exact fun _ => rfl) (Shows.bind ?_ fun _ => ih (i + 1))
    exact Shows.ensuring_silent (by exact fun _ => rfl) (shows_run _)

theorem syncobjOutLoop_shows (k : ℕ) (c : Chunk) (n i : ℕ) :
    Shows parserOf (syncobjOutLoop env k c n i) (Cs.syncobjOutLoop env.toEnv k c n i) := by
  induction n generalizing i with
  | zero => exact .pure _
  | succ n ih =>
    refine Shows.bind (shows_run _) fun handle => Shows.bind (.require _ _) fun _ => ?_
    refine Shows.silent (by exact fun _ => rfl) (Shows.bind (shows_run _) fun _ => ?_)
    exact Shows.silent (by exact fun _ => rfl) (ih (i + 1))

theorem csDependency_shows (k : ℕ) (c : Chunk) :
    Shows parserOf (csDependency env k c) (Cs.csDependency env.toEnv k c) := by
  refine Shows.ite (fenceDepLoop_shows env k c _ 0) (Shows.ite (syncobjInLoop_shows env k c _ 0)
    (Shows.ite ?_ (.pure _)))
  simp only [allocPostDep, Prog.bind_assoc]
  refine Shows.silent (by exact fun _ => rfl) (Shows.silent (by exact fun _ => rfl) ?_)
  exact Shows.bind (shows_run _) fun _ => Shows.bind (.require _ _) fun _ =>
    syncobjOutLoop_shows env k c _ 0

theorem csDependencies_shows (cs : List Chunk) (k : ℕ) :
    Shows parserOf (csDependencies env k cs) (Cs.csDependencies env.toEnv k cs) := by
  induction cs generalizing k with
  | nil => exact .pure _
  | cons c cs ih => exact Shows.bind (csDependency_shows env k c) fun _ => ih (k + 1)

theorem csSubmit_shows : Shows parserOf (csSubmit env) (Cs.csSubmit env.toEnv) := by
  have hassoc : Cs.csSubmit env.toEnv = (do
      let ring ← gets (·.ring)
      let _ ← deref .ring ring
      let ctx ← gets (·.ctx)
      let _ ← deref .ctx ctx
      let job ← takeJob
      outcome env.schedJobInit
      let notifier ← gets (·.mn)
      mnLock notifier
      userptrPages env.toEnv
      let _ ← outcome env.ctxAddFence
      pure job) := by
    simp only [Cs.csSubmit, takeJob, userptrPages, Prog.bind_assoc]
  have hadd : Shows parserOf (ctxAddFence env) (outcome env.ctxAddFence) := by
    simp only [ctxAddFence, env.ctxAddFence_eq]
    exact fun _ => rfl
  rw [hassoc]
  refine Shows.bind (shows_run _) fun _ => Shows.bind (shows_run _) fun _ =>
    Shows.bind (shows_run _) fun _ => Shows.bind (shows_run _) fun _ =>
    Shows.bind (shows_run _) fun job => ?_
  refine Shows.bind (Shows.onError_silent (by exact fun _ => rfl) (.outcome _)) fun _ => ?_
  refine Shows.silent (by exact fun _ => rfl) (Shows.bind (shows_run _) fun _ =>
    Shows.bind (shows_run _) fun _ => ?_)
  refine Shows.bind (Shows.onError_silent (by exact fun _ => rfl) (shows_run _)) fun _ => ?_
  refine Shows.silent (by exact fun _ => rfl) (Shows.silent (by exact fun _ => rfl) ?_)
  refine Shows.bind (Shows.onError_silent (by exact fun _ => rfl) hadd) fun _ => ?_
  intro s
  rfl

/-- The account has no effect on what the ioctl does. -/
theorem csIoctl_shows (req : Request) :
    Shows parserOf (csIoctl env req) (Cs.csIoctl env.toEnv req) := by
  refine Shows.ite (Shows.ensuring ?_ ?_) (.fail _)
  · refine Shows.bind (csParserInit_shows env req) fun _ => Shows.bind (shows_run _) fun _ =>
      Shows.bind (csParserBos_shows env req) fun _ => Shows.bind (shows_run _) fun chunks =>
      Shows.bind (csDependencies_shows env chunks 0) fun _ => Shows.bind (shows_run _) fun _ =>
      Shows.bind (shows_run _) fun _ => csSubmit_shows env
  · exact Shows.then_silent (by exact fun _ => rfl) (shows_run _)

end Shows

end Gsgpu.Cs.References
