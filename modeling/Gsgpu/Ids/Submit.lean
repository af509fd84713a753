import Gsgpu.Ids.Grant
import Gsgpu.Ids.Pool
import Gsgpu.Ring.Schedule

/-! `gsgpu_ib_schedule` beside the VMID manager: what `gsgpu_vm_flush` records in a VMID, and the
packets that are committed. A packet that `gsgpu_ring_undo` discards was never there. -/
namespace Gsgpu.Submit
open CommandRing (Engine FenceOutcome emitPasidMapping emitVmFlush emitFence)
open CommandRing.Engine (flushNeeded vmNeedPipelineSync)
open Cs (Ib RingType)
open Ids (VmidMgr Vmid Vm Unscheduled)

/-- A packet of a submission. -/
inductive Packet
  | vmBind (vmid pasid : ℕ)
  | vmFlush (vmid pdAddr : ℕ)
  | fence (ring seq : ℕ)
  | ib (vmid : ℕ) (ib : Ib)
  | userFence (addr seq : ℕ)

/-- The words of a packet on a ring. -/
def Packet.words (type : RingType) (fenceAddr : ℕ) : Packet → List ℕ
  | .vmBind vmid pasid => emitPasidMapping type vmid pasid
  | .vmFlush vmid pdAddr => emitVmFlush vmid pdAddr
  | .fence _ seq => emitFence fenceAddr seq false true
  | .ib vmid i => Cs.ringEmitIb type i vmid
  | .userFence addr seq => emitFence addr seq true false

/-- A job that has its VMID. `vm` is its VM's `entity.fence_context`, `fence` its `s_fence`. -/
structure Granted where
  job : CommandRing.Job
  vm : ℕ
  fence : SchedFence

/-- The manager, the rings' sequence numbers, the jobs with a VMID that are not yet scheduled, and
all that was committed, in order. -/
structure Machine where
  mgr : VmidMgr
  gpuResetCounter : ℕ
  syncSeq : ℕ → ℕ
  pending : List Granted
  log : List Packet

/-- What a call of `gsgpu_ib_schedule` finds. -/
structure Env where
  ready : Bool
  alloc : Option Errno
  schedSync : Bool
  signaled : Fence → Bool
  flushFence : FenceOutcome
  fence : FenceOutcome

namespace Machine

/-- Change the record of a VMID. -/
def setId (s : Machine) (v : ℕ) (f : Vmid → Vmid) : Machine :=
  { s with mgr := s.mgr.setId v (f (s.mgr.ids v)) }

/-- `id->pasid != job->pasid || !id->pasid_mapping || !signaled(id->pasid_mapping)`, and
`gsgpu_vmid_had_gpu_reset`. -/
def ringEnv (s : Machine) (env : Env) (job : CommandRing.Job) : CommandRing.Env where
  schedSync := env.schedSync
  hadGpuReset := (s.mgr.ids job.vmid).currentGpuResetCount != s.gpuResetCounter
  pasidStale := (s.mgr.ids job.vmid).pasid != job.pasid ||
    !(s.mgr.ids job.vmid).pasidMapping.any env.signaled
  flushFence := env.flushFence
  fence := env.fence

/-- The sequence number that a ring's next fence gets. -/
def nextSeq (s : Machine) (ring : ℕ) : ℕ := (s.syncSeq ring + 1) % 2 ^ 32

/-- `gsgpu_fence_emit`. The sequence number stays used when the packet is discarded. -/
def fenceEmit (s : Machine) (ring : ℕ) : FenceOutcome → Except Errno ℕ × Machine
  | .noMemory => (.error .enomem, s)
  | .waitFailed r =>
    (.error r, { s with syncSeq := Function.update s.syncSeq ring (s.nextSeq ring) })
  | .done =>
    (.ok (s.nextSeq ring), { s with syncSeq := Function.update s.syncSeq ring (s.nextSeq ring) })

/-- `id->last_flush` and the reset count, after a flush. -/
def recordFlush (s : Machine) (v : ℕ) (fence : Option Fence) : Machine :=
  s.setId v fun id => { id with lastFlush := fence, currentGpuResetCount := s.gpuResetCounter }

/-- `id->pasid` and `id->pasid_mapping`, after a mapping. -/
def recordPasid (s : Machine) (v pasid : ℕ) (fence : Option Fence) : Machine :=
  s.setId v fun id => { id with pasid := pasid, pasidMapping := fence }

/-- `vm_flush_needed` of `gsgpu_vm_flush`. -/
def vmFlushNeeded (s : Machine) (env : Env) (job : CommandRing.Job) : Bool :=
  flushNeeded (s.ringEnv env job) job

/-- `pasid_mapping_needed` of `gsgpu_vm_flush`. -/
def pasidMappingNeeded (s : Machine) (env : Env) (job : CommandRing.Job) : Bool :=
  (s.ringEnv env job).hadGpuReset || (s.ringEnv env job).pasidStale

/-- The packets of `gsgpu_vm_flush` before its fence. -/
def flushPackets (s : Machine) (env : Env) (job : CommandRing.Job) : List Packet :=
  (if s.pasidMappingNeeded env job then [.vmBind job.vmid job.pasid] else []) ++
    if s.vmFlushNeeded env job || s.pasidMappingNeeded env job then
      [.vmFlush job.vmid job.vmPdAddr] else []

/-- `gsgpu_vm_flush`, with the packets it wrote. -/
def vmFlush (s : Machine) (env : Env) (ring : ℕ) (job : CommandRing.Job) (needPipeSync : Bool) :
    Except Errno (List Packet) × Machine :=
  if !s.vmFlushNeeded env job && !needPipeSync then (.ok [], s)
  else if s.vmFlushNeeded env job then
    match s.fenceEmit ring env.flushFence with
    | (.error r, s') => (.error r, s')
    | (.ok seq, s') =>
      let s' := s'.recordFlush job.vmid (some (.hw ring seq))
      (.ok (s.flushPackets env job ++ [.fence ring seq]),
        if s.pasidMappingNeeded env job then
          s'.recordPasid job.vmid job.pasid (some (.hw ring seq)) else s')
  else
    (.ok (s.flushPackets env job),
      if s.pasidMappingNeeded env job then s.recordPasid job.vmid job.pasid none else s)

/-- `need_pipe_sync` of `gsgpu_ib_schedule`. -/
def needPipeSync (s : Machine) (env : Env) (job : CommandRing.Job) : Bool :=
  env.schedSync || vmNeedPipelineSync (s.ringEnv env job) job

/-- The part of `gsgpu_ib_schedule` that flushes the VM of a job. -/
def flush (s : Machine) (env : Env) (ring : ℕ) :
    Option CommandRing.Job → Except Errno (List Packet) × Machine
  | some job => s.vmFlush env ring job (s.needPipeSync env job)
  | none => (.ok [], s)

/-- The packets between the flush and the last fence. -/
def bodyPackets (ibs : List Ib) : Option CommandRing.Job → List Packet
  | some job => ibs.map (.ib job.vmid) ++
      if job.ufAddr = 0 then [] else [.userFence job.ufAddr job.ufSequence]
  | none => ibs.map (.ib 0)

/-- `if (job && job->vmid) gsgpu_vmid_reset(adev, job->vmid)`. -/
def resetJob (s : Machine) : Option CommandRing.Job → Machine
  | some job => if job.vmid = 0 then s else { s with mgr := Ids.vmidReset s.mgr job.vmid }
  | none => s

/-- `gsgpu_ib_schedule`: what was written is committed at its end, or discarded on an error. -/
def ibSchedule (s : Machine) (env : Env) (ring : ℕ) (ibs : List Ib)
    (job : Option CommandRing.Job) : Except Errno Unit × Machine :=
  if ibs.length = 0 then (.error .einval, s)
  else if !env.ready then (.error .einval, s)
  else if job.any (fun job => job.vm && job.vmid = 0) then (.error .einval, s)
  else match env.alloc with
  | some r => (.error r, s)
  | none =>
    match s.flush env ring job with
    | (.error r, s') => (.error r, s')
    | (.ok packets, s') =>
      match s'.fenceEmit ring env.fence with
      | (.error r, s'') => (.error r, s''.resetJob job)
      | (.ok seq, s'') =>
        (.ok (), { s'' with log := s''.log ++ (packets ++ bodyPackets ibs job ++ [.fence ring seq]) })

end Machine

/-! ### Runs -/

/-- An event, with all that its outcome depends on. -/
inductive Event
  | grab (env : Ids.Env) (vm : Vm) (fence : SchedFence) (sync : Sync) (job : CommandRing.Job)
  | schedule (env : Env) (ibs : List Ib) (j : Granted)
  | kernel (env : Env) (ring : ℕ) (ibs : List Ib) (job : Option CommandRing.Job)
  | skip (j : Granted)
  | allocReserved (vm : ℕ)
  | freeReserved (vm : ℕ)
  | reset (vmid : ℕ)
  | gpuReset

/-- The job as `gsgpu_vmid_grab` takes it. -/
def grabJob (job : CommandRing.Job) : Ids.Job := ⟨job.vmPdAddr, job.vmNeedsFlush, job.vmid, job.pasid⟩

/-- The job after a grab. -/
def grabbedJob (job : CommandRing.Job) (j : Ids.Job) : CommandRing.Job :=
  { job with vmPdAddr := j.vmPdAddr, vmNeedsFlush := j.vmNeedsFlush, vmid := j.vmid, pasid := j.pasid }

namespace Machine

/-- `gsgpu_vmid_grab` for a job, which is then ready to be scheduled if it got a VMID. -/
def grab (s : Machine) (env : Ids.Env) (vm : Vm) (fence : SchedFence) (sync : Sync)
    (job : CommandRing.Job) : Machine :=
  match Ids.vmidGrab env vm fence.ring (.finished fence) s.mgr sync (grabJob job) with
  | (.ok (some _), mgr, _, j) =>
    { s with mgr := mgr, pending := ⟨grabbedJob job j, vm.entity, fence⟩ :: s.pending }
  | (_, mgr, _, _) => { s with mgr := mgr }

/-- The fences of a job signal after it was scheduled. -/
def Quiet (s : Machine) (signaled : Fence → Bool) : Prop :=
  ∀ j ∈ s.pending, Unscheduled signaled j.fence

/-- The job is handed to the ring, or dropped: it is no longer pending. -/
def Takes (s : Machine) (j : Granted) (rest : List Granted) : Prop :=
  ∃ before after, s.pending = before ++ j :: after ∧ rest = before ++ after

end Machine

/-- One event. A VM keeps the pasid it was made with; a job is scheduled once, after its grab. -/
def Step (pasidOf : ℕ → ℕ) (s : Machine) : Event → Machine → Prop
  | .grab env vm fence sync job, s' =>
    job.vm = true ∧ job.vmid = 0 ∧ vm.pasid = pasidOf vm.entity ∧ s.Quiet env.signaled ∧
      s' = s.grab env vm fence sync job
  | .schedule env ibs j, s' =>
    ∃ rest, s.Takes j rest ∧
      s' = ({ s with pending := rest }.ibSchedule env j.fence.ring ibs (some j.job)).2
  | .kernel env ring ibs job, s' =>
    (∀ j ∈ job, j.vm = false ∧ j.vmid = 0) ∧ s' = (s.ibSchedule env ring ibs job).2
  | .skip j, s' => ∃ rest, s.Takes j rest ∧ s' = { s with pending := rest }
  | .allocReserved vm, s' =>
    ∃ r mgr, Ids.vmidAllocReserved s.mgr vm = .done r mgr ∧ s' = { s with mgr := mgr }
  | .freeReserved vm, s' => s' = { s with mgr := Ids.vmidFreeReserved s.mgr vm }
  | .reset vmid, s' => s' = { s with mgr := Ids.vmidReset s.mgr vmid }
  | .gpuReset, s' => s' = { s with gpuResetCounter := s.gpuResetCounter + 1 }

/-- A new device: nothing was submitted. -/
def Initial (s : Machine) : Prop :=
  s.mgr = Ids.vmidMgrInit ∧ s.pending = [] ∧ s.log = []

/-! ### What was committed -/

/-- The pasid a VMID is bound to after a packet. -/
def bindStep (v : ℕ) (b : Option ℕ) : Packet → Option ℕ
  | .vmBind vmid pasid => if vmid = v then some pasid else b
  | _ => b

/-- The pasid of the last `GSPKT_VM_BIND` for a VMID. -/
def lastBind (log : List Packet) (v : ℕ) : Option ℕ := log.foldl (bindStep v) none

/-- A flush of the VMID was committed, with this fence behind it. -/
def FlushCommitted (log : List Packet) (v : ℕ) (f : Fence) : Prop :=
  ∃ pdAddr ring seq, f = .hw ring seq ∧ [.vmFlush v pdAddr, .fence ring seq] <:+: log

/-- What is recorded of a VMID was committed, when one of its jobs is. -/
structure Truthful (s : Machine) (j : Granted) : Prop where
  bound : lastBind s.log j.job.vmid = some j.job.pasid
  flushed : ∀ f, (s.mgr.ids j.job.vmid).lastFlush = some f →
    FlushCommitted s.log j.job.vmid f

/-- `gsgpu_vm_flush` records something of the job: the fence of a flush, or the pasid. -/
def Machine.Records (s : Machine) (env : Env) (job : CommandRing.Job) : Prop :=
  s.vmFlushNeeded env job = true ∧ env.flushFence = .done ∨
    s.vmFlushNeeded env job = false ∧ s.needPipeSync env job = true ∧
      s.pasidMappingNeeded env job = true

/-- `gsgpu_vm_flush` records something of this call, and the call then fails. -/
def LosesRecord (s : Machine) (env : Env) (ibs : List Ib) (j : Granted) : Prop :=
  ibs.length ≠ 0 ∧ env.ready = true ∧ env.alloc = none ∧ s.Records env j.job ∧ env.fence ≠ .done

/-- No call loses what it recorded. -/
def KeepsRecords (s : Machine) : Event → Prop
  | .schedule env ibs j => ¬ LosesRecord s env ibs j
  | _ => True

end Gsgpu.Submit
