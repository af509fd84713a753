import Gsgpu.Vm.Update

/-! The requests that reach a VM: the `GEM_VA` ioctl, opening and closing a BO, moves of a BO,
and the part of a command submission that brings the page table up to date. -/
namespace Gsgpu.Vm

/-- `struct drm_gsgpu_gem_va`. -/
structure VaRequest where
  operation : ℕ
  flags : ℕ
  vaAddress : ℕ
  offsetInBo : ℕ
  mapSize : ℕ
  vaAddress_lt : vaAddress < 2 ^ 64
  offsetInBo_lt : offsetInBo < 2 ^ 64
  mapSize_lt : mapSize < 2 ^ 64

/-- `GSGPU_VA_OP_MAP`. -/
def vaOpMap : ℕ := 1
/-- `GSGPU_VA_OP_UNMAP`. -/
def vaOpUnmap : ℕ := 2
/-- `GSGPU_VA_OP_CLEAR`. -/
def vaOpClear : ℕ := 3
/-- `GSGPU_VA_OP_REPLACE`. -/
def vaOpReplace : ℕ := 4

/-- `GSGPU_VM_DELAY_UPDATE`. -/
def vmDelayUpdate : ℕ := 1 <<< 0
/-- `GSGPU_VM_PAGE_PRT`. -/
def vmPagePrt : ℕ := 1 <<< 4
/-- `valid_flags` of the ioctl. -/
def validFlags : ℕ := 1 <<< 0 ||| 1 <<< 1 ||| 1 <<< 2 ||| 1 <<< 3 ||| 0xf <<< 5
/-- `prt_flags` of the ioctl. -/
def prtFlags : ℕ := vmDelayUpdate ||| vmPagePrt

/-- `GSGPU_VA_RESERVED_SIZE`. -/
def vaReservedSize : ℕ := 1 <<< 20
/-- `GSGPU_VA_HOLE_START`. -/
def vaHoleStart : ℕ := 0x0000800000000000
/-- `GSGPU_VA_HOLE_END`. -/
def vaHoleEnd : ℕ := 0xffff800000000000

/-- What the ioctl is answered: the BO of the handle, and which of its calls succeed. `ptsReady`
says that no page table is on the evicted list. -/
structure IoctlEnv where
  lookup : Option ℕ
  reserve : Except Errno Unit
  allocLevels : Except Errno Unit
  mappingOk : Bool
  beforeOk : Bool
  afterOk : Bool
  ptsReady : Bool
  debug : Bool
  update : UpdateEnv
  budget : ℕ

/-- `gsgpu_vm_ready`. -/
def vmReady (s : State) (ptsReady : Bool) : Bool := s.status.evicted.isEmpty && ptsReady

/-- `gsgpu_vm_alloc_pts`. -/
def vmAllocPts (allocLevels : Except Errno Unit) (saddr size : ℕ) : Except Errno Unit :=
  if saddr % gpuPageSize ≠ 0 ∨ size % gpuPageSize ≠ 0 then .error .einval
  else if maxPfn ≤ lastByte saddr size / gpuPageSize then .error .einval
  else allocLevels

/-- `mmu_get_vm_pte_flags`. -/
def getVmPteFlags (flags : ℕ) : ℕ :=
  (if flags.testBit 1 then 2 ^ 0 else 0) ||| (if flags.testBit 2 then 2 ^ 3 else 0)

/-- `gsgpu_gem_va_update_vm`. Errors are not reported. -/
def gemVaUpdateVm (env : IoctlEnv) (s : State) (k : Key) (operation : ℕ) : Option State :=
  if !vmReady s env.ptsReady then some s
  else
    let r := vmClearFreed s env.budget
    if r.ok && (operation = vaOpMap || operation = vaOpReplace) then
      (vmBoUpdate env.update r.val k false r.budget).map (·.val)
    else some r.val

/-- The checks at the start of the ioctl; the address without its sign extension. -/
def vaAddressOk (req : VaRequest) : Except Errno ℕ :=
  if req.vaAddress < vaReservedSize then .error .einval
  else if vaHoleStart ≤ req.vaAddress ∧ req.vaAddress < vaHoleEnd then .error .einval
  else if req.flags &&& (2 ^ 32 - 1 - validFlags) ≠ 0 ∧ req.flags &&& (2 ^ 32 - 1 - prtFlags) ≠ 0 then
    .error .einval
  else if req.operation = vaOpMap ∨ req.operation = vaOpUnmap ∨ req.operation = vaOpClear ∨
      req.operation = vaOpReplace then .ok (req.vaAddress % 2 ^ 48)
  else .error .einval

/-- The `bo_va` the request is about; a clear is about none. -/
def vaKey (env : IoctlEnv) (req : VaRequest) (s : State) : Except Errno Key :=
  if req.operation ≠ vaOpClear ∧ req.flags &&& vmPagePrt = 0 then
    match env.lookup with
    | none => .error .enoent
    | some b =>
      match env.reserve with
      | .error e => .error e
      | .ok () => if (s.boVas (some b)).isSome then .ok (some b) else .error .enoent
  else
    match env.reserve with
    | .error e => .error e
    | .ok () => .ok none

/-- The operation itself. -/
def vaOperation (env : IoctlEnv) (req : VaRequest) (va : ℕ) (k : Key) (s : State) :
    Except Errno Unit × State :=
  if req.operation = vaOpMap then
    match vmAllocPts env.allocLevels va req.mapSize with
    | .error e => (.error e, s)
    | .ok () => vmBoMap env.mappingOk s k va req.offsetInBo req.mapSize (getVmPteFlags req.flags)
  else if req.operation = vaOpUnmap then vmBoUnmap s k va
  else if req.operation = vaOpClear then
    vmBoClearMappings env.beforeOk env.afterOk s va req.mapSize
  else
    match vmAllocPts env.allocLevels va req.mapSize with
    | .error e => (.error e, s)
    | .ok () => vmBoReplaceMap env.mappingOk env.beforeOk env.afterOk s k va req.offsetInBo
        req.mapSize (getVmPteFlags req.flags)

/-- `gsgpu_gem_va_ioctl`. -/
def gemVaIoctl (env : IoctlEnv) (req : VaRequest) (s : State) : Option (Except Errno Unit × State) :=
  match vaAddressOk req with
  | .error e => some (.error e, s)
  | .ok va =>
    match vaKey env req s with
    | .error e => some (.error e, s)
    | .ok k =>
      match vaOperation env req va k s with
      | (.error e, s) => some (.error e, s)
      | (.ok (), s) =>
        if req.flags &&& vmDelayUpdate = 0 ∧ env.debug = false then
          (gemVaUpdateVm env s k req.operation).map fun s => (.ok (), s)
        else some (.ok (), s)

/-- `gsgpu_gem_object_open`. -/
def gemObjectOpen (addOk : Bool) (s : State) (b : ℕ) : State :=
  match s.boVas (some b) with
  | some bv => s.setBoVa (some b) { bv with refCount := bv.refCount + 1 }
  | none => if addOk then vmBoAdd s (some b) else s

/-- `gsgpu_gem_object_close`. -/
def gemObjectClose (reserveOk ptsReady : Bool) (budget : ℕ) (s : State) (b : ℕ) : State :=
  if !reserveOk then s
  else
    match s.boVas (some b) with
    | none => s
    | some bv =>
      if bv.refCount = 1 then
        let s := vmBoRmv s (some b)
        if vmReady s ptsReady then (vmClearFreed s budget).val else s
      else s.setBoVa (some b) { bv with refCount := bv.refCount - 1 }

/-- `GSGPU_GEM_OP_SET_PLACEMENT` of `gsgpu_gem_op_ioctl`. -/
def gemSetPlacement (s : State) (b : ℕ) (preferred : Mem → Bool) : State :=
  let s := { s with bos := Function.update s.bos b { s.bos b with preferred := preferred } }
  if (s.bos b).perVm then vmBoInvalidate s b true else s

/-- A move of a BO: which, whether it is evicted, and where to. -/
structure Move where
  bo : ℕ
  evicted : Bool
  mem : Mem

/-- Several moves. -/
def moveAll (moves : List Move) (s : State) : State :=
  moves.foldl (fun s m => boMove s m.bo m.evicted m.mem) s

/-- What a submission is answered. `validate` gives the moves that the validation of an evicted BO
makes, and whether it returns 0; `moves` are the moves while the listed buffers are validated. -/
structure SubmitEnv where
  validate : ℕ → List Move × Bool
  moves : List Move
  boList : List ℕ
  trylock : Key → Bool
  syncOk : ℕ → Bool
  directoriesOk : Bool
  debug : Bool
  update : UpdateEnv
  budget : ℕ

/-- The loop of `gsgpu_vm_validate_pt_bos` over the evicted BOs. -/
def validateLoop (validate : ℕ → List Move × Bool) : List Key → State → Bool × State
  | [], s => (true, s)
  | none :: ks, s => validateLoop validate ks s
  | some b :: ks, s =>
    let s := moveAll (validate b).1 s
    if (validate b).2 then
      validateLoop validate ks { s with status := s.status.moveToMoved (some b) }
    else (false, s)

/-- `gsgpu_vm_validate_pt_bos`. -/
def vmValidatePtBos (env : SubmitEnv) (s : State) : Bool × State :=
  validateLoop env.validate s.status.evicted s

/-- The loop of `gsgpu_bo_vm_update_pte` over the buffer list. -/
def updateListLoop (env : SubmitEnv) : ℕ → List ℕ → ℕ → State → Option (Result State)
  | _, [], budget, s => some ⟨true, budget, s⟩
  | i, b :: bs, budget, s =>
    match vmBoUpdate env.update s (some b) false budget with
    | none => none
    | some ⟨false, budget, s⟩ => some ⟨false, budget, s⟩
    | some ⟨true, budget, s⟩ =>
      if env.syncOk i then updateListLoop env (i + 1) bs budget s else some ⟨false, budget, s⟩

/-- The last steps of `gsgpu_bo_vm_update_pte`: the directories, and with `vm_debug` the
invalidation of everything listed. -/
def updateEnd (env : SubmitEnv) (s : State) : Bool × State :=
  if env.directoriesOk && env.syncOk (env.boList.length + 1) then
    (true, if env.debug then env.boList.foldl (fun s b => vmBoInvalidate s b false) s else s)
  else (false, s)

/-- `gsgpu_bo_vm_update_pte`. -/
def boVmUpdatePte (env : SubmitEnv) (s : State) : Option (Bool × State) :=
  let r := vmClearFreed s env.budget
  if !r.ok then some (false, r.val)
  else
    match vmBoUpdate env.update r.val none false r.budget with
    | none => none
    | some ⟨false, _, s⟩ => some (false, s)
    | some ⟨true, budget, s⟩ =>
      if !env.syncOk 0 then some (false, s)
      else
        match updateListLoop env 1 env.boList budget s with
        | none => none
        | some ⟨false, _, s⟩ => some (false, s)
        | some ⟨true, budget, s⟩ =>
          match vmHandleMoved env.update env.trylock s budget with
          | none => none
          | some ⟨false, _, s⟩ => some (false, s)
          | some ⟨true, _, s⟩ => some (updateEnd env s)

/-- The page table part of a command submission; the flag says that both calls returned 0. -/
def submit (env : SubmitEnv) (s : State) : Option (Bool × State) :=
  match vmValidatePtBos env s with
  | (false, s) => some (false, s)
  | (true, s) => boVmUpdatePte env (moveAll env.moves s)

/-- What can happen to a VM. -/
inductive Event
  | ioctl (env : IoctlEnv) (req : VaRequest)
  | openBo (addOk : Bool) (b : ℕ)
  | closeBo (reserveOk ptsReady : Bool) (budget b : ℕ)
  | move (b : ℕ) (evicted : Bool) (mem : Mem)
  | setPlacement (b : ℕ) (preferred : Mem → Bool)
  | submit (env : SubmitEnv)

/-- One event. A call that does not return has no step. -/
def step (s : State) (e : Event) (s' : State) : Prop :=
  match e with
  | .ioctl env req => ∃ r, gemVaIoctl env req s = some (r, s')
  | .openBo addOk b => s' = gemObjectOpen addOk s b
  | .closeBo reserveOk ptsReady budget b => s' = gemObjectClose reserveOk ptsReady budget s b
  | .move b evicted mem => s' = boMove s b evicted mem
  | .setPlacement b preferred => s' = gemSetPlacement s b preferred
  | .submit env => ∃ ok, submit env s = some (ok, s')

/-- A VM as `gsgpu_driver_open_kms` leaves it: nothing mapped, and the PRT `bo_va` there. -/
structure Fresh (s : State) : Prop where
  va : s.va = []
  boVas : s.boVas = Function.update (fun _ => none) none (some ⟨1, false, false, [], []⟩)
  freed : s.freed = []
  status : s.status = ⟨[], [], [], []⟩
  pte : ∀ p, s.pte p = ⟨0, 0⟩

end Gsgpu.Vm
