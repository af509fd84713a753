import Gsgpu.Ids.Submit
import Gsgpu.Lib.Run

/-! The rings beside the VMID manager: what is committed is executed in order on each ring, and the
page-directory register and the TLB of a VMID are those of the last flush that was executed. -/
namespace Gsgpu.Isolation
open Ids (VmidMgr Vm)

/-- A job that has its VMID, with the `sync->last_vm_update` that it was granted with. -/
structure User extends Submit.Granted where
  update : Option Fence

/-- What a ring executes: a packet of `gsgpu_vm_flush` for a job, the IBs of a job, and the end of a
job, with which its finished fence signals. -/
inductive Packet
  | vm (j : User) (packet : Submit.Packet)
  | ib (j : User)
  | finish (t : SchedFence)

/-- `done` counts what a ring has executed of its log. The TLB of a VMID is known by what the rings
had executed at its last flush. -/
structure Machine where
  mgr : VmidMgr
  syncSeq : ℕ → ℕ
  waiting : List User
  log : ℕ → List Packet
  done : ℕ → ℕ
  pdReg : ℕ → ℕ
  tlb : ℕ → Option (ℕ → ℕ)

namespace Machine

/-- What a ring has executed. -/
def executed (s : Machine) (ring : ℕ) : List Packet := (s.log ring).take (s.done ring)

/-- The packet that a ring executes next. -/
def next (s : Machine) (ring : ℕ) : Option Packet := (s.log ring)[s.done ring]?

def Finished (s : Machine) (t : SchedFence) : Prop := .finish t ∈ s.executed t.ring

/-- What a signaled fence stands for. -/
def Signaled (s : Machine) : Fence → Prop
  | .finished t => s.Finished t
  | .scheduled t => .finish t ∈ s.log t.ring
  | .hw ring seq => ∀ j, .vm j (.fence ring seq) ∈ s.log ring →
      .vm j (.fence ring seq) ∈ s.executed ring
  | .array _ _ => True

/-- No fence is found signaled too early. -/
def Sound (s : Machine) (signaled : Fence → Bool) : Prop :=
  ∀ f, signaled f = true → s.Signaled f

/-- The fence of the next job of an entity. -/
def Fresh (s : Machine) (t : SchedFence) : Prop :=
  (∀ u, .finish u ∈ s.log u.ring → u.entity = t.entity → u.seqno < t.seqno) ∧
    ∀ j ∈ s.waiting, j.fence.entity ≠ t.entity

/-- `gsgpu_vmid_grab` for a job. -/
def grab (s : Machine) (env : Ids.Env) (vm : Vm) (fence : SchedFence) (sync : Sync)
    (job : CommandRing.Job) : Machine :=
  match Ids.vmidGrab env vm fence.ring (.finished fence) s.mgr sync (Submit.grabJob job) with
  | (.ok (some _), mgr, _, j) =>
    { s with
      mgr := mgr
      waiting := ⟨⟨Submit.grabbedJob job j, vm.entity, fence⟩, sync.lastVmUpdate⟩ :: s.waiting }
  | (_, mgr, _, _) => { s with mgr := mgr }

/-- The dependency of a job on the update of its page tables: it has signaled, or is scheduled on
the job's own ring. -/
def Ready (s : Machine) (j : User) : Prop :=
  ∀ t, j.update = some (.finished t) →
    s.Finished t ∨ t.ring = j.fence.ring ∧ .finish t ∈ s.log t.ring

/-- The manager as `gsgpu_vm_flush` sees it. There are no GPU resets. -/
def submit (s : Machine) : Submit.Machine := ⟨s.mgr, 0, s.syncSeq, [], []⟩

/-- Packets are committed on a ring. -/
def push (s : Machine) (ring : ℕ) (packets : List Packet) : Machine :=
  { s with log := Function.update s.log ring (s.log ring ++ packets) }

/-- `gsgpu_ib_schedule`, in which every fence is emitted. -/
def schedule (s : Machine) (env : Submit.Env) (j : User) (rest : List User) : Machine :=
  match s.submit.vmFlush env j.fence.ring j.job (s.submit.needPipeSync env j.job) with
  | (.ok packets, m) =>
    { s.push j.fence.ring (packets.map (.vm j) ++ [.ib j] ++ [.finish j.fence]) with
      mgr := m.mgr, syncSeq := m.syncSeq, waiting := rest }
  | (.error _, m) => { s with mgr := m.mgr, syncSeq := m.syncSeq, waiting := rest }

/-- What a packet does when it is executed. -/
def effect (s : Machine) : Packet → Machine
  | .vm _ (.vmFlush vmid pdAddr) =>
    { s with
      pdReg := Function.update s.pdReg vmid pdAddr
      tlb := Function.update s.tlb vmid (some s.done) }
  | _ => s

/-- A ring executes its next packet. -/
def execute (s : Machine) (ring : ℕ) : Machine :=
  match s.next ring with
  | some p => { s.effect p with done := Function.update s.done ring (s.done ring + 1) }
  | none => s

end Machine

/-! ### Runs -/

/-- An event. `work` is a job that uses no VMID, as an update of page tables. -/
inductive Event
  | grab (env : Ids.Env) (vm : Vm) (fence : SchedFence) (sync : Sync) (job : CommandRing.Job)
  | schedule (env : Submit.Env) (j : User)
  | work (t : SchedFence)
  | execute (ring : ℕ)
  | allocReserved (vm : ℕ)
  | freeReserved (vm : ℕ)
  | reset (vmid : ℕ)

/-- One event. The jobs of an entity are prepared one after the other, for one ring. A job is
scheduled when its updates have signaled, or are scheduled on the same ring. -/
def Step (ringOf : ℕ → ℕ) (s : Machine) : Event → Machine → Prop
  | .grab env vm fence sync job, s' =>
    job.vm = true ∧ job.vmid = 0 ∧ job.vmPdAddr ≠ CommandRing.boInvalidOffset ∧
      fence.ring = ringOf fence.entity ∧ s.Fresh fence ∧ s.Sound env.signaled ∧
        s' = s.grab env vm fence sync job
  | .schedule env j, s' =>
    env.flushFence = .done ∧ s.Ready j ∧
      ∃ before after, s.waiting = before ++ j :: after ∧ s' = s.schedule env j (before ++ after)
  | .work t, s' =>
    t.ring = ringOf t.entity ∧ s.Fresh t ∧ s' = s.push t.ring [.finish t]
  | .execute ring, s' => s' = s.execute ring
  | .allocReserved vm, s' =>
    ∃ r mgr, Ids.vmidAllocReserved s.mgr vm = .done r mgr ∧ s' = { s with mgr := mgr }
  | .freeReserved vm, s' => s' = { s with mgr := Ids.vmidFreeReserved s.mgr vm }
  | .reset vmid, s' => s' = { s with mgr := Ids.vmidReset s.mgr vmid }

/-- A new device: nothing was submitted. -/
def Initial (s : Machine) : Prop :=
  s.mgr = Ids.vmidMgrInit ∧ s.waiting = [] ∧ (∀ r, s.log r = [] ∧ s.done r = 0) ∧
    ∀ v, s.tlb v = none

/-- The job is one up to a fence of its entity. -/
def Covered (t : SchedFence) (f : Fence) : Prop :=
  (Fence.finished t).context = f.context ∧ t.seqno ≤ f.seqno

/-- The IBs of the job are executed next, or the job executes. -/
def Executes (s : Machine) (j : User) : Prop :=
  s.next j.fence.ring = some (.ib j) ∨
    .ib j ∈ s.executed j.fence.ring ∧ ¬ s.Finished j.fence

/-- The job finds its page directory, a TLB that was flushed after every update up to its
`sync->last_vm_update`, and no job of another VM that executes with the same VMID on another
ring. -/
structure Isolated (s : Machine) (j : User) : Prop where
  directory : s.pdReg j.job.vmid = j.job.vmPdAddr
  flushed : ∃ d, s.tlb j.job.vmid = some d ∧ ∀ f, j.update = some f →
    ∀ t, Covered t f → .finish t ∈ s.log t.ring → .finish t ∈ (s.log t.ring).take (d t.ring)
  alone : ∀ r k, r ≠ j.fence.ring → .ib k ∈ s.executed r → k.job.vmid = j.job.vmid →
    k.vm ≠ j.vm → s.Finished k.fence

/-- The last flush of the VMID is before the job on the ring or has signaled, and has the job's
updates. -/
def Flushed (signaled : Fence → Bool) (ring : ℕ) (id : Ids.Vmid) (updates : Option Fence) : Prop :=
  Ids.lastFlushPending signaled ring id = false ∧ Ids.UpTo updates id.flushedUpdates

/-- A grab that does not have to wait finds a VMID to share that needs no flush. No page directory
at address 0 is shared, which also stands for one that was forgotten. -/
def SharesFlushed (s : Machine) : Event → Prop
  | .grab env vm fence sync job =>
    ∀ idle, (Ids.vmidGrabIdle env fence.ring s.mgr sync).1 = .ok (some idle) →
      match s.mgr.reservedVmid vm.entity with
      | none => ∀ i, Ids.usedVmid s.mgr vm job.vmPdAddr = some i →
        Flushed env.signaled fence.ring (s.mgr.ids i) sync.lastVmUpdate ∧ job.vmPdAddr ≠ 0
      | some i => (s.mgr.ids i).owner = some vm.entity → (s.mgr.ids i).pdGpuAddr = job.vmPdAddr →
        Flushed env.signaled fence.ring (s.mgr.ids i) sync.lastVmUpdate → job.vmPdAddr ≠ 0
  | _ => True

end Gsgpu.Isolation
