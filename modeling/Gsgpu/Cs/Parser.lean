import Gsgpu.Basic
import Gsgpu.Lib.Prog

/-! The command submission ioctl, `gsgpu_cs_ioctl`: five passes over the chunks of a request.
A chunk's words are read through `readWord`, which faults on a word that was not copied from
user space, and the parser's pointers through `deref`. What the functions outside `gsgpu_cs.c`
answer is the environment's. -/
namespace Gsgpu.Cs

/-- `struct drm_gsgpu_cs_chunk` with the words user space has at `chunk_data`. -/
structure Chunk where
  chunkId : UInt32
  lengthDw : UInt32
  data : ℕ → UInt32

/-- `GSGPU_CHUNK_ID_IB`. -/
def chunkIdIb : UInt32 := 1
/-- `GSGPU_CHUNK_ID_FENCE`. -/
def chunkIdFence : UInt32 := 2
/-- `GSGPU_CHUNK_ID_DEPENDENCIES`. -/
def chunkIdDependencies : UInt32 := 3
/-- `GSGPU_CHUNK_ID_SYNCOBJ_IN`. -/
def chunkIdSyncobjIn : UInt32 := 4
/-- `GSGPU_CHUNK_ID_SYNCOBJ_OUT`. -/
def chunkIdSyncobjOut : UInt32 := 5
/-- `GSGPU_CHUNK_ID_BO_HANDLES`. -/
def chunkIdBoHandles : UInt32 := 6

/-- `size *= sizeof(uint32_t)` is computed in an `unsigned`, and that many bytes are copied. -/
def Chunk.copiedDw (c : Chunk) : ℕ := c.lengthDw.toNat * 4 % 2 ^ 32 / 4

/-- `struct drm_gsgpu_cs_in`, with the chunks its pointer array leads to. -/
structure Request where
  ctxId : UInt32
  boListHandle : UInt32
  chunks : List Chunk

/-- What the parser reads of `struct gsgpu_ctx`. -/
structure Ctx where
  guilty : Bool
  vramLostCounter : ℕ

/-- What the parser reads of a buffer object. -/
structure Bo where
  size : ℕ
  usermm : Bool
  gpuOffset : ℕ

/-- `struct gsgpu_bo_list`, less its entries. -/
structure BoList where
  numEntries : ℕ
  firstUserptr : ℕ

inductive RingType
  | gfx
  | xdma
deriving DecidableEq

/-- What the parser reads of `struct gsgpu_ring`. -/
structure Ring where
  idx : ℕ
  type : RingType
deriving DecidableEq

/-- `struct gsgpu_ib`. -/
structure Ib where
  gpuAddr : ℕ
  lengthDw : ℕ
  flags : UInt32
deriving DecidableEq

/-- `struct gsgpu_job`, as far as the parser fills it in. -/
structure Job where
  numIbs : ℕ
  ibs : List Ib
  preamblePresent : Bool
  ufAddr : ℕ

/-- The value of `p->mn`: `gsgpu_mn_get` returns an error pointer when it fails. -/
inductive MnPtr
  | null
  | mn
  | errPtr
deriving DecidableEq

/-- `struct gsgpu_cs_parser`. -/
structure Parser where
  ctx : Option Ctx
  nchunks : ℕ
  chunks : Option (List Chunk)
  job : Option Job
  ring : Option Ring
  boList : Option BoList
  mn : MnPtr
  ufRobj : Option Bo
  numPostDepSyncobjs : ℕ

/-- `struct gsgpu_cs_parser parser = {}`. -/
def Parser.zero : Parser := ⟨none, 0, none, none, none, none, .null, none, 0⟩

/-- An access the ioctl has no right to make: through an absent pointer, or of a chunk word that
was not copied from user space. -/
inductive Fault
  | ctx
  | job
  | ring
  | mn
  | chunks
  | boList
  | word
deriving DecidableEq

/-- A function of the parser. -/
abbrev CsM := Prog Fault Errno Parser

/-- What the functions the ioctl calls answer. The first argument is the chunk's index, the
second, where there is one, that of the entry in it. -/
structure Env where
  accelWorking : Bool
  chunkArrayOk : Bool
  ctxGet : UInt32 → Option Ctx
  copyChunkArray : Bool
  chunksOk : Bool
  copyChunk : ℕ → Bool
  kdataOk : ℕ → Bool
  copyData : ℕ → Bool
  gemObjectLookup : ℕ → UInt32 → Option Bo
  createListEntryArray : ℕ → UInt32 → UInt32 → ℕ → Except Errno Unit
  boListUserptrs : ℕ → UInt32 → Except Errno ℕ
  jobOk : Bool
  vramLostCounter : ℕ
  queueMgrMap : ℕ → ℕ → UInt32 → UInt32 → UInt32 → Except Errno Ring
  ibGet : ℕ → Except Errno Unit
  ctxWaitPrevFence : ℕ → Except Errno Unit
  boListGet : UInt32 → Except Errno BoList
  boListEmpty : Except Errno Unit
  mnOk : Bool
  reserveAndValidate : Except Errno Unit
  allocGart : Except Errno Unit
  depCtxGet : ℕ → ℕ → UInt32 → Option Ctx
  ctxGetFence : ℕ → ℕ → ℕ → Except Errno Bool
  syncFence : ℕ → ℕ → Except Errno Unit
  syncobjFindFence : ℕ → ℕ → UInt32 → Except Errno Unit
  postDepOk : ℕ → Bool
  syncobjFind : ℕ → ℕ → UInt32 → Bool
  boVmUpdatePte : Except Errno Unit
  reserveShared : Except Errno Unit
  syncRings : Except Errno Unit
  schedJobInit : Except Errno Unit
  userptrNeedsPages : Bool
  ctxAddFence : Except Errno ℕ

open Prog

/-- Read one word of `chunk->kdata`. -/
def readWord (c : Chunk) (i : ℕ) : CsM UInt32 :=
  if i < c.copiedDw then pure (c.data i) else fault .word

/-- Read a 64-bit field of `chunk->kdata`. -/
def readQword (c : Chunk) (i : ℕ) : CsM ℕ := do
  let lo ← readWord c i
  let hi ← readWord c (i + 1)
  pure (hi.toNat * 2 ^ 32 + lo.toNat)

/-- The chunks the later passes walk: `p->chunks[0 .. nchunks)`. -/
def parserChunks : CsM (List Chunk) := do
  let nchunks ← gets (·.nchunks)
  if nchunks = 0 then pure []
  else do
    let chunks ← gets (·.chunks)
    deref .chunks chunks

/-- `data->offset + 8`, in 32 bits. -/
def ufEnd (offset : UInt32) : ℕ := (offset + 8).toNat

/-- `gsgpu_cs_user_fence_chunk`, on a `struct drm_gsgpu_cs_chunk_fence`: the offset. -/
def csUserFenceChunk (env : Env) (i : ℕ) (c : Chunk) : CsM UInt32 := do
  let handle ← readWord c 0
  match env.gemObjectLookup i handle with
  | none => fail .einval
  | some bo =>
    modify fun p => { p with ufRobj := some bo }
    if bo.size ≠ pageSize then
      modify fun p => { p with ufRobj := none }
      fail .einval
    else do
      let offset ← readWord c 1
      if bo.size < ufEnd offset || bo.usermm then
        modify fun p => { p with ufRobj := none }
        fail .einval
      else pure offset

/-- `gsgpu_bo_list_create` for `bo_number` entries of which some are userptr BOs. -/
def boListCreate (boNumber : ℕ) (userptrs : ℕ) : BoList :=
  ⟨boNumber, boNumber - userptrs⟩

/-- `gsgpu_cs_bo_handles_chunk`, on a `struct drm_gsgpu_bo_list_in`. -/
def csBoHandlesChunk (env : Env) (i : ℕ) (c : Chunk) : CsM Unit := do
  let boInfoPtr ← readQword c 4
  let boNumber ← readWord c 2
  let boInfoSize ← readWord c 3
  outcome (env.createListEntryArray i boNumber boInfoSize boInfoPtr)
  let userptrs ← outcome (env.boListUserptrs i boNumber)
  modify fun p => { p with boList := some (boListCreate boNumber.toNat userptrs) }

/-- The body of the loop of `gsgpu_cs_parser_init`: copy the `i`-th chunk in and look at it. -/
def parserInitChunk (env : Env) (i : ℕ) (c : Chunk) (numIbs : ℕ) (ufOffset : UInt32) :
    CsM (ℕ × UInt32) := do
  require (env.copyChunk i) .efault
  require (env.kdataOk i) .enomem
  require (env.copyData i) .efault
  if c.chunkId = chunkIdIb then pure (numIbs + 1, ufOffset)
  else if c.chunkId = chunkIdFence then
    -- `length_dw * sizeof(uint32_t)` is 64 bits wide here
    if c.lengthDw.toNat * 4 < 8 then fail .einval
    else do
      let ufOffset ← csUserFenceChunk env i c
      pure (numIbs, ufOffset)
  else if c.chunkId = chunkIdBoHandles then
    if c.lengthDw.toNat * 4 < 24 then fail .einval
    else do
      csBoHandlesChunk env i c
      pure (numIbs, ufOffset)
  else if c.chunkId = chunkIdDependencies ∨ c.chunkId = chunkIdSyncobjIn ∨
      c.chunkId = chunkIdSyncobjOut then
    pure (numIbs, ufOffset)
  else fail .einval

/-- The loop of `gsgpu_cs_parser_init` over the chunks, with `num_ibs` and `uf_offset`. -/
def parserInitLoop (env : Env) : ℕ → List Chunk → ℕ → UInt32 → CsM (ℕ × UInt32)
  | _, [], numIbs, ufOffset => pure (numIbs, ufOffset)
  | i, c :: cs, numIbs, ufOffset => do
    let (numIbs, ufOffset) ← parserInitChunk env i c numIbs ufOffset
    parserInitLoop env (i + 1) cs numIbs ufOffset

/-- `gsgpu_job_alloc`. -/
def jobAlloc (env : Env) (numIbs : ℕ) : CsM Unit := do
  if numIbs = 0 then fail .einval
  else do
    require env.jobOk .enomem
    modify fun p => { p with job := some ⟨numIbs, [], false, 0⟩ }

/-- The labels `free_all_kdata` and `free_partial_kdata`. -/
def freeKdata (p : Parser) : Parser := { p with chunks := none, nchunks := 0 }

/-- `gsgpu_cs_parser_init`. -/
def csParserInit (env : Env) (req : Request) : CsM Unit := do
  if req.chunks.length = 0 then pure ()
  else do
    require env.chunkArrayOk .enomem
    match env.ctxGet req.ctxId with
    | none => fail .einval
    | some ctx =>
      modify fun p => { p with ctx := some ctx }
      require (!ctx.guilty) .ecanceled
      require env.copyChunkArray .efault
      modify fun p => { p with nchunks := req.chunks.length }
      require env.chunksOk .enomem
      modify fun p => { p with chunks := some req.chunks }
      onError freeKdata do
        let (numIbs, ufOffset) ← parserInitLoop env 0 req.chunks 0 0
        jobAlloc env numIbs
        let ctx ← gets (·.ctx)
        let ctx ← deref .ctx ctx
        require (ctx.vramLostCounter = env.vramLostCounter) .ecanceled
        let robj ← gets (·.ufRobj)
        if robj.isSome then
          modify fun p =>
            { p with job := p.job.map fun j => { j with ufAddr := ufOffset.toNat } }

/-- `ib_bytes / 4` and the rest of what `gsgpu_cs_ib_fill` puts into `struct gsgpu_ib`. -/
def ibOfChunk (c : Chunk) : Ib :=
  ⟨(c.data 3).toNat * 2 ^ 32 + (c.data 2).toNat, (c.data 4).toNat / 4, c.data 1⟩

/-- `GSGPU_IB_FLAG_PREAMBLE` marks the job. -/
def notePreamble (flags : UInt32) : CsM Unit :=
  if flags &&& 2 ≠ 0 then
    modify fun p => { p with job := p.job.map fun j => { j with preamblePresent := true } }
  else pure ()

/-- The body of the loop of `gsgpu_cs_ib_fill`, for an IB chunk. -/
def ibFillChunk (env : Env) (i : ℕ) (c : Chunk) : CsM Unit := do
  let ctx ← gets (·.ctx)
  let _ ← deref .ctx ctx
  let ipType ← readWord c 5
  let ipInstance ← readWord c 6
  let ringNo ← readWord c 7
  let ring ← outcome (env.queueMgrMap i 0 ipType ipInstance ringNo)
  let flags ← readWord c 1
  notePreamble flags
  let cur ← gets (·.ring)
  require (cur.all (· = ring)) .einval
  modify fun p => { p with ring := some ring }
  outcome (env.ibGet i)
  let vaStart ← readQword c 2
  let ibBytes ← readWord c 4
  modify fun p => { p with job := p.job.map fun j =>
    { j with ibs := j.ibs ++ [⟨vaStart, ibBytes.toNat / 4, flags⟩] } }

/-- The loop of `gsgpu_cs_ib_fill`. -/
def ibFillLoop (env : Env) : ℕ → List Chunk → ℕ → CsM Unit
  | _, [], _ => pure ()
  | i, c :: cs, j => do
    let job ← gets (·.job)
    let job ← deref .job job
    if job.numIbs ≤ j then pure ()
    else if c.chunkId ≠ chunkIdIb then ibFillLoop env (i + 1) cs j
    else do
      ibFillChunk env i c
      ibFillLoop env (i + 1) cs (j + 1)

/-- `gsgpu_cs_ib_fill`. -/
def csIbFill (env : Env) : CsM Unit := do
  let chunks ← parserChunks
  ibFillLoop env 0 chunks 0
  let ring ← gets (·.ring)
  let ring ← deref .ring ring
  let ctx ← gets (·.ctx)
  let _ ← deref .ctx ctx
  outcome (env.ctxWaitPrevFence ring.idx)

/-- The list of `gsgpu_cs_parser_bos`: the one of the handle, or of a `BO_HANDLES` chunk, or an
empty one. -/
def parserBoList (env : Env) (req : Request) : CsM Unit := do
  let boList ← gets (·.boList)
  if req.boListHandle ≠ 0 then
    if boList.isSome then fail .einval
    else do
      let list ← outcome (env.boListGet req.boListHandle)
      modify fun p => { p with boList := some list }
  else if boList.isNone then do
    outcome env.boListEmpty
    modify fun p => { p with boList := some (boListCreate 0 0) }
  else pure ()

/-- `gsgpu_mn_get`, for a list with userptr BOs. Its result is not checked. -/
def parserMn (env : Env) (boList : BoList) : CsM Unit :=
  if boList.firstUserptr ≠ boList.numEntries then
    modify fun p => { p with mn := if env.mnOk then .mn else .errPtr }
  else pure ()

/-- `gsgpu_cs_parser_bos`. Reserving and validating the buffers is one outcome here. -/
def csParserBos (env : Env) (req : Request) : CsM Unit := do
  parserBoList env req
  let boList ← gets (·.boList)
  let boList ← deref .boList boList
  parserMn env boList
  outcome env.reserveAndValidate
  let uf ← gets (·.ufRobj)
  match uf with
  | none => pure ()
  | some uf =>
    let job ← gets (·.job)
    let job ← deref .job job
    modify fun p => { p with job := some { job with ufAddr := job.ufAddr + uf.gpuOffset } }
    outcome env.allocGart

/-- A fence that is still pending is added to the job's sync object. -/
def addFenceDep (env : Env) (k i : ℕ) (fence : Bool) : CsM Unit :=
  if fence then do
    let job ← gets (·.job)
    let _ ← deref .job job
    outcome (env.syncFence k i)
  else pure ()

/-- The loop of `gsgpu_cs_process_fence_dep` over `struct drm_gsgpu_cs_chunk_dep`: `n` entries
from the `i`-th on. -/
def fenceDepLoop (env : Env) (k : ℕ) (c : Chunk) : ℕ → ℕ → CsM Unit
  | 0, _ => pure ()
  | n + 1, i => do
    let ctxId ← readWord c (6 * i + 3)
    match env.depCtxGet k i ctxId with
    | none => fail .einval
    | some _ =>
      let ipType ← readWord c (6 * i)
      let ipInstance ← readWord c (6 * i + 1)
      let ringNo ← readWord c (6 * i + 2)
      let _ ← outcome (env.queueMgrMap k i ipType ipInstance ringNo)
      let handle ← readQword c (6 * i + 4)
      let fence ← outcome (env.ctxGetFence k i handle)
      addFenceDep env k i fence
      fenceDepLoop env k c n (i + 1)

/-- The loop of `gsgpu_cs_process_syncobj_in_dep` over `struct drm_gsgpu_cs_chunk_sem`. -/
def syncobjInLoop (env : Env) (k : ℕ) (c : Chunk) : ℕ → ℕ → CsM Unit
  | 0, _ => pure ()
  | n + 1, i => do
    let handle ← readWord c i
    outcome (env.syncobjFindFence k i handle)
    let job ← gets (·.job)
    let _ ← deref .job job
    outcome (env.syncFence k i)
    syncobjInLoop env k c n (i + 1)

/-- The loop of `gsgpu_cs_process_syncobj_out_dep`. -/
def syncobjOutLoop (env : Env) (k : ℕ) (c : Chunk) : ℕ → ℕ → CsM Unit
  | 0, _ => pure ()
  | n + 1, i => do
    let handle ← readWord c i
    require (env.syncobjFind k i handle) .einval
    modify fun p => { p with numPostDepSyncobjs := p.numPostDepSyncobjs + 1 }
    syncobjOutLoop env k c n (i + 1)

/-- `chunk->length_dw * 4 / sizeof(..)`, the product in 32 bits. -/
def numDeps (c : Chunk) (size : ℕ) : ℕ := c.lengthDw.toNat * 4 % 2 ^ 32 / size

/-- The dependencies of one chunk. -/
def csDependency (env : Env) (k : ℕ) (c : Chunk) : CsM Unit :=
  if c.chunkId = chunkIdDependencies then fenceDepLoop env k c (numDeps c 24) 0
  else if c.chunkId = chunkIdSyncobjIn then syncobjInLoop env k c (numDeps c 4) 0
  else if c.chunkId = chunkIdSyncobjOut then do
    modify fun p => { p with numPostDepSyncobjs := 0 }
    require (env.postDepOk k) .enomem
    syncobjOutLoop env k c (numDeps c 4) 0
  else pure ()

/-- `gsgpu_cs_dependencies`, from the `k`-th chunk on. -/
def csDependencies (env : Env) : ℕ → List Chunk → CsM Unit
  | _, [] => pure ()
  | k, c :: cs => do
    csDependency env k c
    csDependencies env (k + 1) cs

/-- The trace calls of `gsgpu_cs_ioctl`, one for each IB: they read the job and the ring. -/
def traceCs : CsM Unit := do
  let job ← gets (·.job)
  let job ← deref .job job
  if 0 < job.numIbs then do
    let ring ← gets (·.ring)
    let _ ← deref .ring ring

/-- `gsgpu_cs_ib_vm_chunk`; `job->vm` is the file's VM. -/
def csIbVmChunk (env : Env) : CsM Unit := do
  let job ← gets (·.job)
  let _ ← deref .job job
  outcome env.boVmUpdatePte
  outcome env.reserveShared
  outcome env.syncRings

/-- `gsgpu_mn_lock`. -/
def mnLock : MnPtr → CsM Unit
  | .errPtr => fault .mn
  | _ => pure ()

/-- `gsgpu_cs_submit`: the job that is pushed to its entity. -/
def csSubmit (env : Env) : CsM Job := do
  let ring ← gets (·.ring)
  let _ ← deref .ring ring
  let ctx ← gets (·.ctx)
  let _ ← deref .ctx ctx
  let job ← gets (·.job)
  modify fun p => { p with job := none }
  let job ← deref .job job
  outcome env.schedJobInit
  let notifier ← gets (·.mn)
  mnLock notifier
  let boList ← gets (·.boList)
  let boList ← deref .boList boList
  require (!(decide (boList.firstUserptr ≠ boList.numEntries) && env.userptrNeedsPages))
    .erestartsys
  let _ ← outcome env.ctxAddFence
  pure job

/-- `gsgpu_cs_parser_fini`. The context, the list and the job are tested before they are used;
the chunks are walked if `nchunks` says there are any. -/
def csParserFini : CsM Unit := do
  let _ ← parserChunks
  pure ()

/-- The passes of `gsgpu_cs_ioctl`. -/
def csPasses (env : Env) (req : Request) : CsM Job := do
  csParserInit env req
  csIbFill env
  csParserBos env req
  let chunks ← parserChunks
  csDependencies env 0 chunks
  traceCs
  csIbVmChunk env
  csSubmit env

/-- `gsgpu_cs_ioctl`: the job of an accepted submission. -/
def csIoctl (env : Env) (req : Request) : CsM Job :=
  if env.accelWorking then ensuring (csPasses env req) csParserFini else fail .ebusy

end Gsgpu.Cs
