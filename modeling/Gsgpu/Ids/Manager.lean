import Gsgpu.Basic
import Gsgpu.Fence

/-! The VMID manager of `gsgpu_ids.c`. Every operation runs under `id_mgr->lock`. A VM is named
by `vm->entity.fence_context`, which no two VMs share; the owner 0 is `none`. -/
namespace Gsgpu.Ids

/-- `GSGPU_NUM_VMID`, to which `mmu_sw_init` sets `id_mgr->num_ids`. -/
def gsgpuNumVmid : ℕ := 4

/-- `GSGPU_VM_MAX_RESERVED_VMID`. -/
def vmMaxReservedVmid : ℕ := 1

/-- `struct gsgpu_vmid`, less its list node. -/
structure Vmid where
  active : Sync
  lastFlush : Option Fence
  owner : Option ℕ
  pdGpuAddr : ℕ
  flushedUpdates : Option Fence
  currentGpuResetCount : ℕ
  pasid : ℕ
  pasidMapping : Option Fence

/-- `struct gsgpu_vmid_mgr` with the state its operations keep elsewhere: the VMs'
`reserved_vmid`, the rings' `vmid_wait` and `vm_manager.seqno`. -/
structure VmidMgr where
  numIds : ℕ
  idsLru : List ℕ
  ids : ℕ → Vmid
  reservedVmidNum : ℕ
  reservedVmid : ℕ → Option ℕ
  vmidWait : ℕ → Option Fence
  seqno : ℕ → ℕ

/-- What a VM's grab reads of `struct gsgpu_vm`. -/
structure Vm where
  entity : ℕ
  useCpuForUpdate : Bool
  pasid : ℕ

/-- What a grab reads and writes of `struct gsgpu_job`. -/
structure Job where
  vmPdAddr : ℕ
  vmNeedsFlush : Bool
  vmid : ℕ
  pasid : ℕ

/-- The outcomes a grab depends on: which fences it finds signaled and which allocations
succeed. `entryOk` is the one `gsgpu_sync_fence` of the path taken. -/
structure Env where
  signaled : Fence → Bool
  arrayOk : Bool
  fencesOk : Bool
  entryOk : Bool

/-- Replace one VMID's record. -/
def VmidMgr.setId (m : VmidMgr) (i : ℕ) (v : Vmid) : VmidMgr :=
  { m with ids := Function.update m.ids i v }

@[simp] theorem VmidMgr.setId_idsLru (m : VmidMgr) (i : ℕ) (v : Vmid) :
    (m.setId i v).idsLru = m.idsLru := rfl
@[simp] theorem VmidMgr.setId_numIds (m : VmidMgr) (i : ℕ) (v : Vmid) :
    (m.setId i v).numIds = m.numIds := rfl
@[simp] theorem VmidMgr.setId_reservedVmid (m : VmidMgr) (i : ℕ) (v : Vmid) :
    (m.setId i v).reservedVmid = m.reservedVmid := rfl
@[simp] theorem VmidMgr.setId_reservedVmidNum (m : VmidMgr) (i : ℕ) (v : Vmid) :
    (m.setId i v).reservedVmidNum = m.reservedVmidNum := rfl

/-- `gsgpu_vmid_reset`. -/
def vmidReset (m : VmidMgr) (vmid : ℕ) : VmidMgr :=
  m.setId vmid { m.ids vmid with owner := none }

/-- The loop of `gsgpu_vmid_mgr_init`, from `i` on. -/
def vmidMgrInitLoop : ℕ → ℕ → VmidMgr → VmidMgr
  | 0, _, m => m
  | n + 1, i, m =>
    let m := vmidReset m i
    let m := m.setId i { m.ids i with active := Sync.create }
    vmidMgrInitLoop n (i + 1) { m with idsLru := m.idsLru ++ [i] }

/-- A `struct gsgpu_vmid` as the zeroed device structure holds it. -/
def Vmid.zero : Vmid := ⟨Sync.create, none, none, 0, none, 0, 0, none⟩

/-- `gsgpu_vmid_mgr_init`: VMID 0 is the system VM's and is skipped. -/
def vmidMgrInit : VmidMgr :=
  vmidMgrInitLoop (gsgpuNumVmid - 1) 1
    ⟨gsgpuNumVmid, [], fun _ => Vmid.zero, 0, fun _ => none, fun _ => none, fun _ => 0⟩

/-- The search of `gsgpu_vmid_grab_idle` over `ids_lru`. -/
def findIdle (signaled : Fence → Bool) (ring : ℕ) : List ℕ → VmidMgr → Option ℕ × VmidMgr
  | [], m => (none, m)
  | i :: rest, m =>
    let (f, active) := (m.ids i).active.peekFence signaled (some ring)
    let m := m.setId i { m.ids i with active := active }
    match f with
    | none => (some i, m)
    | some _ => findIdle signaled ring rest m

/-- `gsgpu_vmid_grab_idle`. `ok none` asks the job to wait for the fence put in `sync`. -/
def vmidGrabIdle (env : Env) (ring : ℕ) (m : VmidMgr) (sync : Sync) :
    Except Errno (Option ℕ) × VmidMgr × Sync :=
  match (m.vmidWait ring).filter fun f => !env.signaled f with
  | some f =>
    let (ok, sync) := sync.syncFence env.entryOk (some f) false
    (if ok then .ok none else .error .enomem, m, sync)
  | none =>
    if !env.fencesOk then (.error .enomem, m, sync)
    else
      match findIdle env.signaled ring m.idsLru m with
      | (some i, m) => (.ok (some i), m, sync)
      | (none, m) =>
        -- no idle VMID: wait until one becomes available
        let seqno := m.seqno ring + 1
        let m := { m with seqno := Function.update m.seqno ring seqno }
        if !env.arrayOk then (.error .enomem, m, sync)
        else
          let (ok, sync) := sync.syncFence env.entryOk (some (.array ring seqno)) false
          (if ok then .ok none else .error .enomem,
            { m with vmidWait := Function.update m.vmidWait ring (some (.array ring seqno)) }, sync)

/-- `!id->last_flush || (last_flush->context != fence_context && !signaled(last_flush))`. -/
def lastFlushPending (signaled : Fence → Bool) (ring : ℕ) (id : Vmid) : Bool :=
  match id.lastFlush with
  | none => true
  | some f => f.context ≠ .hw ring && !signaled f

/-- The part of `gsgpu_vmid_grab_reserved` for a VMID that has to be flushed: the page directory
is forgotten, to prevent one context starved by another context, and an active user is looked
for. -/
def forceFlush (signaled : Fence → Bool) (ring : ℕ) (flush : Bool) (id : Vmid) :
    Option Fence × Vmid :=
  if flush then
    let (tmp, active) := id.active.peekFence signaled (some ring)
    (tmp, { id with pdGpuAddr := 0, active := active })
  else (none, id)

/-- `gsgpu_vmid_grab_reserved`, on the VM's reserved VMID `i`. -/
def vmidGrabReserved (env : Env) (vm : Vm) (ring : ℕ) (fence : Fence) (i : ℕ)
    (m : VmidMgr) (sync : Sync) (job : Job) :
    Except Errno (Option ℕ) × VmidMgr × Sync × Job :=
  let id := m.ids i
  let updates := match sync.lastVmUpdate, id.flushedUpdates with
    | some u, some f => if u.context = f.context && !u.isLater f then none else some u
    | u, _ => u
  let flush := decide (id.owner ≠ some vm.entity) || decide (job.vmPdAddr ≠ id.pdGpuAddr) ||
    updates.isSome || lastFlushPending env.signaled ring id
  match forceFlush env.signaled ring flush id with
  | (some f, id) =>
    let (ok, sync) := sync.syncFence env.entryOk (some f) false
    (if ok then .ok none else .error .enomem, m.setId i id, sync, job)
  | (none, id) =>
    let (ok, active) := id.active.syncFence env.entryOk (some fence) false
    let id := { id with active := active }
    if !ok then (.error .enomem, m.setId i id, sync, job)
    else
      let id := if updates.isSome then { id with flushedUpdates := updates } else id
      (.ok (some i), m.setId i id, sync,
        { job with vmNeedsFlush := vm.useCpuForUpdate || flush })

/-- `updates && (!flushed || dma_fence_is_later(updates, flushed))`. -/
def updatesLater (updates flushed : Option Fence) : Bool :=
  match updates, flushed with
  | some u, some f => u.isLater f
  | some _, none => true
  | none, _ => false

/-- `gsgpu_vmid_grab_used`: the last VMID of the LRU that the VM already owns under this page
directory, whether or not it has to be flushed. -/
def vmidGrabUsed (env : Env) (vm : Vm) (ring : ℕ) (fence : Fence) (m : VmidMgr) (sync : Sync)
    (job : Job) : Except Errno (Option ℕ) × VmidMgr × Job :=
  let job := { job with vmNeedsFlush := vm.useCpuForUpdate }
  match m.idsLru.reverse.find? fun i =>
      decide ((m.ids i).owner = some vm.entity) && decide ((m.ids i).pdGpuAddr = job.vmPdAddr) with
  | none => (.ok none, m, job)
  | some i =>
    let id := m.ids i
    let later := updatesLater sync.lastVmUpdate id.flushedUpdates
    let needsFlush := vm.useCpuForUpdate || lastFlushPending env.signaled ring id || later
    let (ok, active) := id.active.syncFence env.entryOk (some fence) false
    let id := { id with active := active }
    if !ok then (.error .enomem, m.setId i id, job)
    else
      let id := if later then { id with flushedUpdates := sync.lastVmUpdate } else id
      (.ok (some i), m.setId i id, { job with vmNeedsFlush := job.vmNeedsFlush || needsFlush })

/-- The idle VMID found earlier, taken when the VM has none to reuse. -/
def vmidTakeIdle (env : Env) (fence : Fence) (i : ℕ) (m : VmidMgr) (sync : Sync) (job : Job) :
    Except Errno ℕ × VmidMgr × Job :=
  let id := m.ids i
  let (ok, active) := id.active.syncFence env.entryOk (some fence) false
  if !ok then (.error .enomem, m.setId i { id with active := active }, job)
  else (.ok i, m.setId i { id with active := active, flushedUpdates := sync.lastVmUpdate },
    { job with vmNeedsFlush := true })

/-- `list_move_tail(&id->list, &id_mgr->ids_lru)`. -/
def moveTail (m : VmidMgr) (i : ℕ) : VmidMgr :=
  { m with idsLru := m.idsLru.erase i ++ [i] }

/-- The end of a successful grab: the VMID's new owner and page directory, and `job->vmid`. -/
def vmidAssign (vm : Vm) (i : ℕ) (m : VmidMgr) (job : Job) : VmidMgr × Job :=
  let id := { m.ids i with pdGpuAddr := job.vmPdAddr, owner := some vm.entity }
  let id := if job.vmNeedsFlush then { id with lastFlush := none } else id
  (m.setId i id, { job with vmid := i, pasid := vm.pasid })

/-- `gsgpu_vmid_grab`. It returns 0 without a VMID when the job has to wait: `job->vmid` is
then as before. -/
def vmidGrab (env : Env) (vm : Vm) (ring : ℕ) (fence : Fence) (m : VmidMgr) (sync : Sync)
    (job : Job) : Except Errno (Option ℕ) × VmidMgr × Sync × Job :=
  match vmidGrabIdle env ring m sync with
  | (.error e, m, sync) => (.error e, m, sync, job)
  | (.ok none, m, sync) => (.ok none, m, sync, job)
  | (.ok (some idle), m, sync) =>
    match m.reservedVmid vm.entity with
    | some r =>
      match vmidGrabReserved env vm ring fence r m sync job with
      | (.error e, m, sync, job) => (.error e, m, sync, job)
      | (.ok none, m, sync, job) => (.ok none, m, sync, job)
      | (.ok (some i), m, sync, job) =>
        let (m, job) := vmidAssign vm i m job
        (.ok (some i), m, sync, job)
    | none =>
      match vmidGrabUsed env vm ring fence m sync job with
      | (.error e, m, job) => (.error e, m, sync, job)
      | (.ok (some i), m, job) =>
        let (m, job) := vmidAssign vm i (moveTail m i) job
        (.ok (some i), m, sync, job)
      | (.ok none, m, job) =>
        match vmidTakeIdle env fence idle m sync job with
        | (.error e, m, job) => (.error e, m, sync, job)
        | (.ok i, m, job) =>
          let (m, job) := vmidAssign vm i (moveTail m i) job
          (.ok (some i), m, sync, job)

/-- What `gsgpu_vmid_alloc_reserved` does. `emptyLru` is `list_first_entry` of an empty list. -/
inductive AllocResult
  | done (r : Except Errno Unit) (m : VmidMgr)
  | emptyLru

/-- `gsgpu_vmid_alloc_reserved`. -/
def vmidAllocReserved (m : VmidMgr) (vm : ℕ) : AllocResult :=
  if (m.reservedVmid vm).isSome then .done (.ok ()) m
  else
    let m := { m with reservedVmidNum := m.reservedVmidNum + 1 }
    if vmMaxReservedVmid < m.reservedVmidNum then
      .done (.error .einval) { m with reservedVmidNum := m.reservedVmidNum - 1 }
    else
      match m.idsLru with
      | [] => .emptyLru
      | i :: rest => .done (.ok ()) { m with
          idsLru := rest
          reservedVmid := Function.update m.reservedVmid vm (some i) }

/-- `gsgpu_vmid_free_reserved`. -/
def vmidFreeReserved (m : VmidMgr) (vm : ℕ) : VmidMgr :=
  match m.reservedVmid vm with
  | none => m
  | some i => { m with
      idsLru := i :: m.idsLru
      reservedVmid := Function.update m.reservedVmid vm none
      reservedVmidNum := m.reservedVmidNum - 1 }

end Gsgpu.Ids
