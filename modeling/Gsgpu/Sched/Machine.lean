import Gsgpu.Basic
import Gsgpu.Sched.RunQueue
import Gsgpu.Sched.Pipeline

/-! The GPU scheduler: its entities with their queues, the run queues, one thread for each scheduler,
and the callbacks of fences, each of which may go on at any time. Jobs, entities and schedulers are
known by numbers. A callback that a fence starts runs some time after the fence has signaled; those
of a `scheduled` fence that wake nobody run at once. -/
namespace Gsgpu.Sched

/-- `DRM_SCHED_PRIORITY_MAX`. -/
def priorityMax : ℕ := 5

/-- The fences a job may wait for: the two of a job's `struct drm_sched_fence`, and those that do not
come from a scheduler. -/
inductive Fence
  | scheduled (job : ℕ)
  | finished (job : ℕ)
  | other (id : ℕ)
deriving DecidableEq

/-- `to_drm_sched_fence`: the job whose fence it is. -/
def Fence.toDrmSchedFence : Fence → Option ℕ
  | scheduled job => some job
  | finished job => some job
  | other _ => none

/-- `sched_rq[priority]` of a scheduler. -/
structure Rq where
  sched : ℕ
  priority : ℕ
deriving DecidableEq

/-- `struct drm_sched_job` with its `s_fence` and what the scheduler asks of the `gsgpu_job` around
it: the fences in `sync`, and whether it needs and has a VMID. `hw` is the fence of the hardware,
`s_fence->parent`, and whether it has signaled; `attached` that `s_fence->cb` is on its list;
`killWait` the job on whose `finished` fence the kill callback is; `freed` how often `free_job` was
called. Remembered only: `stage` and `deps`, the fences that were ever in `sync`. -/
structure Job where
  entity : ℕ
  sched : ℕ
  priority : ℕ
  seqno : ℕ
  sync : List Fence
  vm : Bool
  vmid : Bool
  published : Bool
  scheduled : Bool
  finished : Bool
  error : Option Errno
  hw : Option Bool
  attached : Bool
  killWait : Option ℕ
  freed : ℕ
  stage : Stage
  deps : List Fence

/-- Where a thread is that makes and pushes jobs, under the lock that `drm_sched_job_init` and
`drm_sched_entity_push_job` are called under. -/
inductive Pusher
  | idle
  | made (job : ℕ)
  | published (job : ℕ)
  | queued
  | listed
deriving DecidableEq

/-- How far an entity is on its way from `drm_sched_entity_init` to the end of
`drm_sched_entity_fini`. -/
inductive Phase
  | absent
  | live
  | removed
  | parked
  | killing
  | gone
deriving DecidableEq

/-- `struct drm_sched_entity`. `listed` is whether `list` is on a list, and `cb` the fence that has
the callback, and whether it is `drm_sched_entity_wakeup`. -/
structure Entity where
  phase : Phase
  pusher : Pusher
  rqList : List Rq
  rq : Rq
  listed : Bool
  queue : List ℕ
  fenceSeq : ℕ
  dependency : Option Fence
  cb : Option (Fence × Bool)
  guilty : Option Bool
  lastScheduled : Option ℕ
  stopped : Bool

/-- Where the thread of a scheduler is in `drm_sched_main`: about to ask whether there is room,
asleep, about to look at the run queue of a priority (and whether it was woken meanwhile), in
`drm_sched_entity_pop_job`, or behind it with a job. -/
inductive Thread
  | check
  | asleep
  | scan (priority : ℕ) (woken : Bool)
  | selected (entity : ℕ)
  | depend (entity job : ℕ)
  | grab (entity job : ℕ)
  | adding (entity job : ℕ) (fence : Fence)
  | taking (entity job : ℕ)
  | popped (job : ℕ)
  | counted (job : ℕ)
  | begun (job : ℕ)
  | ran (job : ℕ)
  | posted (job : ℕ)
deriving DecidableEq

/-- Woken up by `wake_up_interruptible`. A thread that is looking at the run queues does so again
before it sleeps. -/
def Thread.woken : Thread → Thread
  | .asleep => .check
  | .scan p _ => .scan p true
  | t => t

/-- The entities, and the schedulers with their threads. Remembered only: `pushed` and `killed`, by
entity, and `taken` and `ran`. -/
structure State where
  next : ℕ
  jobs : ℕ → Job
  entities : ℕ → Entity
  rqs : Rq → RunQueue
  threads : ℕ → Thread
  mirror : ℕ → List ℕ
  hwRqCount : ℕ → UInt32
  numJobs : ℕ → UInt32
  hwSubmissionLimit : ℕ → UInt32
  others : ℕ → Bool
  pushed : ℕ → List ℕ
  killed : ℕ → List ℕ
  taken : List ℕ
  ran : List ℕ

namespace State

def setJob (st : State) (j : ℕ) (f : Job → Job) : State :=
  { st with jobs := Function.update st.jobs j (f (st.jobs j)) }

def setEntity (st : State) (e : ℕ) (f : Entity → Entity) : State :=
  { st with entities := Function.update st.entities e (f (st.entities e)) }

def setThread (st : State) (s : ℕ) (t : Thread) : State :=
  { st with threads := Function.update st.threads s t }

@[simp] theorem setThread_self (st : State) (s : ℕ) (t : Thread) :
    (st.setThread s t).threads s = t := Function.update_self ..

theorem setThread_of_ne (st : State) {s i : ℕ} (t : Thread) (h : i ≠ s) :
    (st.setThread s t).threads i = st.threads i := Function.update_of_ne h ..

/-- `dma_fence_is_signaled`. -/
def signaled (st : State) : Fence → Bool
  | .scheduled j => (st.jobs j).scheduled
  | .finished j => (st.jobs j).finished
  | .other i => st.others i

/-- `drm_sched_entity_is_ready`. -/
def isReady (st : State) (e : ℕ) : Bool :=
  !(st.entities e).queue.isEmpty && (st.entities e).dependency.isNone

/-- `drm_sched_ready`. -/
def ready (st : State) (s : ℕ) : Bool := st.hwRqCount s < st.hwSubmissionLimit s

/-- `wake_up_interruptible` on `wake_up_worker`. -/
def wake (st : State) (s : ℕ) : State := st.setThread s (st.threads s).woken

/-- `drm_sched_wakeup`. -/
def wakeup (st : State) (s : ℕ) : State := if st.ready s then st.wake s else st

/-- `drm_sched_rq_add_entity`. -/
def rqAddEntity (st : State) (rq : Rq) (e : ℕ) : State :=
  if (st.entities e).listed then st
  else
    { st.setEntity e fun x => { x with listed := true } with
      rqs := Function.update st.rqs rq ((st.rqs rq).addEntity e) }

/-- `drm_sched_rq_remove_entity`. -/
def rqRemoveEntity (st : State) (rq : Rq) (e : ℕ) : State :=
  if !(st.entities e).listed then st
  else
    { st.setEntity e fun x => { x with listed := false } with
      rqs := Function.update st.rqs rq ((st.rqs rq).removeEntity e) }

/-- The loop of `drm_sched_entity_get_free_sched`: the best so far is the first of those with the
fewest jobs. -/
def freeSched (st : State) : UInt32 → Option Rq → List Rq → Option Rq
  | _, best, [] => best
  | least, best, rq :: rqs =>
    if st.numJobs rq.sched < least then st.freeSched (st.numJobs rq.sched) (some rq) rqs
    else st.freeSched least best rqs

/-- `drm_sched_entity_get_free_sched`. -/
def getFreeSched (st : State) (e : ℕ) : Option Rq :=
  st.freeSched 4294967295 none (st.entities e).rqList

/-- `drm_sched_entity_select_rq`. The counts are below `UINT_MAX`, so there is always a best. -/
def selectRq (st : State) (e : ℕ) : State :=
  let x := st.entities e
  if !x.queue.isEmpty || x.rqList.length ≤ 1 then st
  else if x.lastScheduled.any fun k => !(st.jobs k).finished then st
  else
    match st.getFreeSched e with
    | none => st
    | some rq =>
      if rq = x.rq then st
      else (st.rqRemoveEntity x.rq e).setEntity e fun x => { x with rq := rq }

/-- `drm_sched_entity_init`. -/
def create (st : State) (e : ℕ) (rq : Rq) (rqList : List Rq) (guilty : Option Bool) : State :=
  st.setEntity e fun _ =>
    { phase := .live, pusher := .idle, rqList := rq :: rqList, rq := rq, listed := false, queue := [],
      fenceSeq := 0, dependency := none, cb := none, guilty := guilty, lastScheduled := none,
      stopped := false }

/-- `drm_sched_job_init` behind `drm_sched_entity_select_rq`, with what its caller has put into
`sync`. -/
def makeJob (st : State) (e : ℕ) (deps : List Fence) (vm : Bool) : State :=
  let x := st.entities e
  { st.setEntity e fun x =>
      { x with fenceSeq := x.fenceSeq + 1, pusher := .made st.next } with
    next := st.next + 1
    jobs := Function.update st.jobs st.next
      { entity := e, sched := x.rq.sched, priority := x.rq.priority, seqno := x.fenceSeq + 1,
        sync := deps, vm := vm, vmid := false, published := false, scheduled := false,
        finished := false, error := none, hw := none, attached := false, killWait := none,
        freed := 0, stage := .made, deps := deps } }

/-- `drm_sched_job_init`. -/
def jobInit (st : State) (e : ℕ) (deps : List Fence) (vm : Bool) : State :=
  (st.selectRq e).makeJob e deps vm

/-- The caller of `drm_sched_job_init` hands the job's fence out, and will push the job. -/
def publish (st : State) (e j : ℕ) : State :=
  (st.setJob j fun x => { x with published := true }).setEntity e fun x =>
    { x with pusher := .published j }

/-- `drm_sched_entity_push_job`, up to `spsc_queue_push`. -/
def pushJob (st : State) (e j : ℕ) : State :=
  let x := st.entities e
  { (st.setJob j fun y => { y with stage := .queued }).setEntity e fun x =>
      { x with queue := x.queue ++ [j], pusher := if x.queue.isEmpty then .queued else .idle } with
    numJobs := Function.update st.numJobs x.rq.sched (st.numJobs x.rq.sched + 1)
    pushed := Function.update st.pushed e (st.pushed e ++ [j]) }

/-- The rest of `drm_sched_entity_push_job` for the first job, without the wakeup at its end. -/
def enlist (st : State) (e : ℕ) : State :=
  if (st.entities e).stopped then st.setEntity e fun x => { x with pusher := .idle }
  else (st.rqAddEntity (st.entities e).rq e).setEntity e fun x => { x with pusher := .listed }

/-- The wakeup at the end of `drm_sched_entity_push_job`. -/
def pushWakeup (st : State) (e : ℕ) : State :=
  (st.wakeup (st.entities e).rq.sched).setEntity e fun x => { x with pusher := .idle }

/-- `drm_sched_entity_set_priority`. -/
def setPriority (st : State) (e priority : ℕ) : State :=
  let st := st.setEntity e fun x =>
    { x with rqList := x.rqList.map fun rq => { rq with priority := priority } }
  let st := st.rqRemoveEntity (st.entities e).rq e
  let st := st.setEntity e fun x => { x with rq := { x.rq with priority := priority } }
  st.rqAddEntity (st.entities e).rq e

/-- What `drm_sched_entity_flush` does when the process was killed. -/
def stop (st : State) (e : ℕ) : State :=
  (st.setEntity e fun x => { x with stopped := true }).rqRemoveEntity (st.entities e).rq e

/-- `drm_sched_entity_fini` takes the entity off its run queue. -/
def finiRemove (st : State) (e : ℕ) : State :=
  (st.rqRemoveEntity (st.entities e).rq e).setEntity e fun x => { x with phase := .removed }

/-- `drm_sched_entity_fini` parks and unparks the thread, unless no job is queued. -/
def finiPark (st : State) (e : ℕ) : State :=
  if (st.entities e).queue.isEmpty then st.setEntity e fun x => { x with phase := .killing }
  else (st.setThread (st.entities e).rq.sched .check).setEntity e fun x => { x with phase := .parked }

/-- `drm_sched_entity_fini` takes the callback off the dependency. -/
def finiDependency (st : State) (e : ℕ) : State :=
  st.setEntity e fun x =>
    { x with
      phase := .killing
      dependency := none
      cb := if x.dependency.isSome then none else x.cb }

/-- `drm_sched_fence_scheduled`. Its `drm_sched_entity_clear_dep` callbacks are called at once. -/
def fenceScheduled (st : State) (j : ℕ) : State :=
  { st.setJob j fun x => { x with scheduled := true } with
    entities := fun e =>
      if (st.entities e).cb = some (.scheduled j, false) then
        { st.entities e with dependency := none, cb := none }
      else st.entities e }

/-- `drm_sched_entity_kill_jobs_cb`. -/
def killJobsCb (st : State) (j : ℕ) : State :=
  st.setJob j fun x =>
    { x with finished := true, killWait := none, freed := x.freed + 1, stage := .dead }

/-- One round of `drm_sched_entity_kill_jobs`, with the error `-ESRCH`. -/
def killJob (st : State) (e j : ℕ) : State :=
  let st := { st.setEntity e fun x => { x with queue := x.queue.tail } with
    killed := Function.update st.killed e (st.killed e ++ [j]) }
  let st := (st.fenceScheduled j).setJob j fun x => { x with error := some (.other 3) }
  match (st.entities e).lastScheduled with
  | none => st.killJobsCb j
  | some k =>
    if (st.jobs k).finished then st.killJobsCb j
    else st.setJob j fun x => { x with killWait := some k, stage := .dying }

/-- The end of `drm_sched_entity_fini`. -/
def finiDone (st : State) (e : ℕ) : State :=
  st.setEntity e fun x => { x with lastScheduled := none, phase := .gone }

/-- `drm_sched_select_entity` at one run queue, and `wait_event_interruptible` behind the last. -/
def scan (st : State) (s p : ℕ) (woken : Bool) : State :=
  match (st.rqs ⟨s, p⟩).selectEntity st.isReady with
  | (rq, some e) =>
    { st.setThread s (.selected e) with rqs := Function.update st.rqs ⟨s, p⟩ rq }
  | (_, none) =>
    match p with
    | 0 => st.setThread s (if woken then .check else .asleep)
    | p + 1 => st.setThread s (.scan p woken)

/-- `gsgpu_sync_get_fence`: the first fence that has not signaled, and what is left. -/
def syncGetFence (st : State) : List Fence → Option Fence × List Fence
  | [] => (none, [])
  | f :: fences => if st.signaled f then st.syncGetFence fences else (some f, fences)

/-- `gsgpu_job_dependency` as far as `gsgpu_vmid_grab`, in the loop of `drm_sched_entity_pop_job`. -/
def dependency (st : State) (s e j : ℕ) : State :=
  let (fence, sync) := st.syncGetFence (st.jobs j).sync
  let st := st.setJob j fun x => { x with sync := sync }
  match fence with
  | some f =>
    (st.setEntity e fun x => { x with dependency := some f }).setThread s (.adding e j f)
  | none =>
    if (st.jobs j).vm && !(st.jobs j).vmid then st.setThread s (.grab e j)
    else (st.setEntity e fun x => { x with dependency := none }).setThread s (.taking e j)

/-- `gsgpu_vmid_grab` has a VMID for the job or not, and fences to wait for. -/
def vmidGrab (st : State) (s e j : ℕ) (fences : List Fence) (got : Bool) : State :=
  (st.setJob j fun x =>
    { x with sync := x.sync ++ fences, vmid := got, deps := x.deps ++ fences }).setThread s
      (.depend e j)

/-- The end of `drm_sched_entity_add_dependency_cb`, for a fence that must signal. -/
def waitFor (st : State) (s e j : ℕ) (f : Fence) : State :=
  if st.signaled f then st.setThread s (.depend e j)
  else (st.setEntity e fun x => { x with cb := some (f, true) }).setThread s .check

/-- `drm_sched_entity_add_dependency_cb`: what comes from the entity itself is not waited for, and
what comes from the same scheduler only until it is scheduled. -/
def addDependencyCb (st : State) (s e j : ℕ) (f : Fence) : State :=
  match f.toDrmSchedFence with
  | none => st.waitFor s e j f
  | some k =>
    if (st.jobs k).entity = e then st.setThread s (.depend e j)
    else if (st.jobs k).sched = (st.entities e).rq.sched then
      let st := st.setEntity e fun x => { x with dependency := some (.scheduled k) }
      if (st.jobs k).scheduled then st.setThread s (.depend e j)
      else (st.setEntity e fun x => { x with cb := some (.scheduled k, false) }).setThread s .check
    else st.waitFor s e j f

/-- The end of `drm_sched_entity_pop_job`. -/
def take (st : State) (s e j : ℕ) : State :=
  { ((st.setJob j fun x =>
        { x with
          error := if (st.entities e).guilty = some true then some .ecanceled else x.error
          stage := .popped }).setEntity e fun x =>
        { x with lastScheduled := some j, queue := x.queue.tail }).setThread s (.popped j) with
    taken := st.taken ++ [j] }

/-- `hw_rq_count` is incremented in `drm_sched_main`. -/
def count (st : State) (s j : ℕ) : State :=
  { (st.setJob j fun x => { x with stage := .counted }).setThread s (.counted j) with
    hwRqCount := Function.update st.hwRqCount s (st.hwRqCount s + 1) }

/-- `drm_sched_job_begin`. -/
def jobBegin (st : State) (s j : ℕ) : State :=
  let sched := (st.jobs j).sched
  { (st.setJob j fun x => { x with stage := .begun }).setThread s (.begun j) with
    mirror := Function.update st.mirror sched (st.mirror sched ++ [j]) }

/-- `gsgpu_job_run`: whether the VRAM was lost since the job was made, and what fence
`gsgpu_ib_schedule` gave, and whether it has signaled already. -/
def runJob (st : State) (s j : ℕ) (lost : Bool) (fence : Option Bool) : State :=
  let error := if lost then some .ecanceled else (st.jobs j).error
  { (st.setJob j fun x =>
      { x with error := error, hw := if error.isSome then none else fence, stage := .ran }).setThread
        s (.ran j) with
    ran := st.ran ++ [j] }

/-- `drm_sched_fence_scheduled` in `drm_sched_main`. -/
def post (st : State) (s j : ℕ) : State :=
  ((st.fenceScheduled j).setJob j fun x => { x with stage := .posted }).setThread s (.posted j)

/-- `drm_sched_process_job`. -/
def processJob (st : State) (j : ℕ) : State :=
  let s := (st.jobs j).sched
  { st.setJob j fun x => { x with finished := true, attached := false, stage := .finished } with
    hwRqCount := Function.update st.hwRqCount s (st.hwRqCount s - 1)
    numJobs := Function.update st.numJobs s (st.numJobs s - 1) }.wake s

/-- The end of a round of `drm_sched_main`. -/
def attach (st : State) (s j : ℕ) : State :=
  if (st.jobs j).hw = some false then
    (st.setJob j fun x => { x with attached := true, stage := .attached }).setThread s .check
  else (st.processJob j).setThread s .check

/-- The next step of a thread that has nothing to ask of the driver. -/
def threadStep (st : State) (s : ℕ) : Option State :=
  match st.threads s with
  | .check => some (st.setThread s (if st.ready s then .scan (priorityMax - 1) false else .asleep))
  | .asleep => none
  | .scan p woken => some (st.scan s p woken)
  | .selected e =>
    match (st.entities e).queue with
    | [] => some (st.setThread s .check)
    | j :: _ => some (st.setThread s (.depend e j))
  | .depend e j => some (st.dependency s e j)
  | .grab _ _ => none
  | .adding e j f => some (st.addDependencyCb s e j f)
  | .taking e j => some (st.take s e j)
  | .popped j => some (st.count s j)
  | .counted j => some (st.jobBegin s j)
  | .begun _ => none
  | .ran j => some (st.post s j)
  | .posted j => some (st.attach s j)

/-- `drm_sched_hw_job_reset`, with the thread parked before and unparked behind it. -/
def reset (st : State) (s : ℕ) : State :=
  let lost := fun j => (st.jobs j).attached && (st.jobs j).hw = some false
  { st.setThread s .check with
    jobs := fun j =>
      if j ∈ st.mirror s ∧ lost j then
        { st.jobs j with hw := none, attached := false, stage := .detached }
      else st.jobs j
    hwRqCount := Function.update st.hwRqCount s
      (st.hwRqCount s - UInt32.ofNat ((st.mirror s).countP lost)) }

/-- `drm_sched_job_finish`. -/
def jobFinish (st : State) (j : ℕ) : State :=
  let s := (st.jobs j).sched
  { st.setJob j fun x => { x with freed := x.freed + 1, stage := .freed } with
    mirror := Function.update st.mirror s ((st.mirror s).erase j) }

/-- `drm_sched_entity_wakeup`. -/
def entityWakeup (st : State) (e : ℕ) : State :=
  (st.setEntity e fun x => { x with dependency := none, cb := none }).wakeup
    (st.entities e).rq.sched

/-- A fence may be waited for by job `j`: it was handed out, and if it is of the same entity then its
job is older. -/
def mayWait (st : State) (e j : ℕ) (f : Fence) : Bool :=
  match f.toDrmSchedFence with
  | none => true
  | some k => (st.jobs k).published && ((st.jobs k).entity != e || k < j)

end State

/-- What may happen next. -/
inductive Event
  | create (e : ℕ) (rq : Rq) (rqList : List Rq) (guilty : Option Bool)
  | jobInit (e : ℕ) (deps : List Fence) (vm : Bool)
  | initFails (e : ℕ)
  | publish (e : ℕ)
  | abandon (e : ℕ)
  | push (e : ℕ)
  | enlist (e : ℕ)
  | pushWakeup (e : ℕ)
  | setPriority (e priority : ℕ)
  | stop (e : ℕ)
  | finiRemove (e : ℕ)
  | finiPark (e : ℕ)
  | finiDependency (e : ℕ)
  | kill (e : ℕ)
  | finiDone (e : ℕ)
  | thread (s : ℕ)
  | vmidGrab (s : ℕ) (fences : List Fence) (got : Bool)
  | runJob (s : ℕ) (lost : Bool) (fence : Option Bool)
  | reset (s : ℕ)
  | blame (e : ℕ)
  | hwSignal (j : ℕ)
  | processCb (j : ℕ)
  | depCb (e : ℕ)
  | finish (j : ℕ)
  | killCb (j : ℕ)
  | otherSignal (i : ℕ)

namespace State

/-- The schedulers behind `drm_sched_init`, with their limits. -/
def start (limit : ℕ → UInt32) : State where
  next := 0
  jobs _ :=
    { entity := 0, sched := 0, priority := 0, seqno := 0, sync := [], vm := false, vmid := false,
      published := false, scheduled := false, finished := false, error := none, hw := none,
      attached := false, killWait := none, freed := 0, stage := .unborn, deps := [] }
  entities _ :=
    { phase := .absent, pusher := .idle, rqList := [], rq := ⟨0, 0⟩, listed := false, queue := [],
      fenceSeq := 0, dependency := none, cb := none, guilty := none, lastScheduled := none,
      stopped := false }
  rqs _ := .empty
  threads _ := .check
  mirror _ := []
  hwRqCount _ := 0
  numJobs _ := 0
  hwSubmissionLimit := limit
  others _ := false
  pushed _ := []
  killed _ := []
  taken := []
  ran := []

/-- A thread that `kthread_park` can park. -/
def mayPark (st : State) (s : ℕ) : Bool :=
  match st.threads s with
  | .check | .asleep => true
  | _ => false

/-- One step. The calls on an entity come between its `drm_sched_entity_init` and
`drm_sched_entity_fini`, and no job is pushed while the latter runs. -/
def step (st : State) : Event → Option State
  | .create e rq rqList guilty =>
    if (st.entities e).phase = .absent ∧ ∀ r ∈ rq :: rqList, r.priority < priorityMax then
      some (st.create e rq rqList guilty)
    else none
  | .jobInit e deps vm =>
    if (st.entities e).phase = .live ∧ (st.entities e).pusher = .idle ∧
        deps.all (st.mayWait e st.next) then
      some (st.jobInit e deps vm)
    else none
  | .initFails e =>
    if (st.entities e).phase = .live ∧ (st.entities e).pusher = .idle then some (st.selectRq e)
    else none
  | .publish e =>
    match (st.entities e).pusher with
    | .made j => some (st.publish e j)
    | _ => none
  | .abandon e =>
    match (st.entities e).pusher with
    | .made _ => some (st.setEntity e fun x => { x with pusher := .idle })
    | _ => none
  | .push e =>
    match (st.entities e).pusher with
    | .published j => some (st.pushJob e j)
    | _ => none
  | .enlist e => if (st.entities e).pusher = .queued then some (st.enlist e) else none
  | .pushWakeup e => if (st.entities e).pusher = .listed then some (st.pushWakeup e) else none
  | .setPriority e priority =>
    if (st.entities e).phase = .live ∧ priority < priorityMax then some (st.setPriority e priority)
    else none
  | .stop e => if (st.entities e).phase = .live then some (st.stop e) else none
  | .finiRemove e =>
    if (st.entities e).phase = .live ∧ (st.entities e).pusher = .idle then some (st.finiRemove e)
    else none
  | .finiPark e =>
    if (st.entities e).phase = .removed ∧
        ((st.entities e).queue = [] ∨ st.mayPark (st.entities e).rq.sched) then
      some (st.finiPark e)
    else none
  | .finiDependency e =>
    if (st.entities e).phase = .parked then some (st.finiDependency e) else none
  | .kill e =>
    match (st.entities e).queue with
    | [] => none
    | j :: _ => if (st.entities e).phase = .killing then some (st.killJob e j) else none
  | .finiDone e =>
    if (st.entities e).phase = .killing ∧ (st.entities e).queue = [] then some (st.finiDone e)
    else none
  | .thread s => st.threadStep s
  | .vmidGrab s fences got =>
    match st.threads s with
    | .grab e j => if fences.all (st.mayWait e j) then some (st.vmidGrab s e j fences got) else none
    | _ => none
  | .runJob s lost fence =>
    match st.threads s with
    | .begun j => some (st.runJob s j lost fence)
    | _ => none
  | .reset s => if st.mayPark s then some (st.reset s) else none
  | .blame e => some (st.setEntity e fun x => { x with guilty := x.guilty.map fun _ => true })
  | .hwSignal j =>
    if (st.jobs j).hw = some false then some (st.setJob j fun x => { x with hw := some true })
    else none
  | .processCb j =>
    if (st.jobs j).attached ∧ (st.jobs j).hw = some true then some (st.processJob j) else none
  | .depCb e =>
    match (st.entities e).cb with
    | some (f, true) => if st.signaled f then some (st.entityWakeup e) else none
    | _ => none
  | .finish j =>
    if (st.jobs j).finished ∧ j ∈ st.mirror (st.jobs j).sched then some (st.jobFinish j) else none
  | .killCb j =>
    match (st.jobs j).killWait with
    | some k => if (st.jobs k).finished then some (st.killJobsCb j) else none
    | none => none
  | .otherSignal i => some { st with others := Function.update st.others i true }

/-- What a step can be, with what was asked before it. -/
inductive Moves (st : State) : Event → State → Prop
  | create {e rq rqList guilty} (hg : (st.entities e).phase = .absent)
      (hr : ∀ r ∈ rq :: rqList, r.priority < priorityMax) :
      Moves st (.create e rq rqList guilty) (st.create e rq rqList guilty)
  | jobInit {e deps vm} (hphase : (st.entities e).phase = .live)
      (hpusher : (st.entities e).pusher = .idle) (hdeps : deps.all (st.mayWait e st.next)) :
      Moves st (.jobInit e deps vm) (st.jobInit e deps vm)
  | initFails {e} (hphase : (st.entities e).phase = .live)
      (hpusher : (st.entities e).pusher = .idle) : Moves st (.initFails e) (st.selectRq e)
  | publish {e j} (hg : (st.entities e).pusher = .made j) : Moves st (.publish e) (st.publish e j)
  | abandon {e j} (hg : (st.entities e).pusher = .made j) :
      Moves st (.abandon e) (st.setEntity e fun x => { x with pusher := .idle })
  | push {e j} (hg : (st.entities e).pusher = .published j) : Moves st (.push e) (st.pushJob e j)
  | enlist {e} (hg : (st.entities e).pusher = .queued) : Moves st (.enlist e) (st.enlist e)
  | pushWakeup {e} (hg : (st.entities e).pusher = .listed) :
      Moves st (.pushWakeup e) (st.pushWakeup e)
  | setPriority {e priority} (hphase : (st.entities e).phase = .live)
      (hp : priority < priorityMax) : Moves st (.setPriority e priority) (st.setPriority e priority)
  | stop {e} (hphase : (st.entities e).phase = .live) : Moves st (.stop e) (st.stop e)
  | finiRemove {e} (hphase : (st.entities e).phase = .live)
      (hpusher : (st.entities e).pusher = .idle) : Moves st (.finiRemove e) (st.finiRemove e)
  | finiPark {e} (hphase : (st.entities e).phase = .removed)
      (hq : (st.entities e).queue = [] ∨ st.mayPark (st.entities e).rq.sched) :
      Moves st (.finiPark e) (st.finiPark e)
  | finiDependency {e} (hphase : (st.entities e).phase = .parked) :
      Moves st (.finiDependency e) (st.finiDependency e)
  | kill {e j rest} (hq : (st.entities e).queue = j :: rest)
      (hphase : (st.entities e).phase = .killing) : Moves st (.kill e) (st.killJob e j)
  | finiDone {e} (hphase : (st.entities e).phase = .killing) (hq : (st.entities e).queue = []) :
      Moves st (.finiDone e) (st.finiDone e)
  | room {s} (hg : st.threads s = .check) (hr : st.ready s) :
      Moves st (.thread s) (st.setThread s (.scan (priorityMax - 1) false))
  | full {s} (hg : st.threads s = .check) (hr : st.ready s = false) :
      Moves st (.thread s) (st.setThread s .asleep)
  | scan {s p woken} (hg : st.threads s = .scan p woken) :
      Moves st (.thread s) (st.scan s p woken)
  | empty {s e} (hg : st.threads s = .selected e) (hq : (st.entities e).queue = []) :
      Moves st (.thread s) (st.setThread s .check)
  | selected {s e j rest} (hg : st.threads s = .selected e)
      (hq : (st.entities e).queue = j :: rest) :
      Moves st (.thread s) (st.setThread s (.depend e j))
  | dependency {s e j} (hg : st.threads s = .depend e j) :
      Moves st (.thread s) (st.dependency s e j)
  | addDependencyCb {s e j f} (hg : st.threads s = .adding e j f) :
      Moves st (.thread s) (st.addDependencyCb s e j f)
  | take {s e j} (hg : st.threads s = .taking e j) : Moves st (.thread s) (st.take s e j)
  | count {s j} (hg : st.threads s = .popped j) : Moves st (.thread s) (st.count s j)
  | jobBegin {s j} (hg : st.threads s = .counted j) : Moves st (.thread s) (st.jobBegin s j)
  | post {s j} (hg : st.threads s = .ran j) : Moves st (.thread s) (st.post s j)
  | attach {s j} (hg : st.threads s = .posted j) : Moves st (.thread s) (st.attach s j)
  | vmidGrab {s e j fences got} (hg : st.threads s = .grab e j)
      (hf : fences.all (st.mayWait e j)) :
      Moves st (.vmidGrab s fences got) (st.vmidGrab s e j fences got)
  | runJob {s j lost fence} (hg : st.threads s = .begun j) :
      Moves st (.runJob s lost fence) (st.runJob s j lost fence)
  | reset {s} (hg : st.mayPark s) : Moves st (.reset s) (st.reset s)
  | blame {e} : Moves st (.blame e) (st.setEntity e fun x =>
      { x with guilty := x.guilty.map fun _ => true })
  | hwSignal {j} (hg : (st.jobs j).hw = some false) :
      Moves st (.hwSignal j) (st.setJob j fun x => { x with hw := some true })
  | processCb {j} (ha : (st.jobs j).attached) (hw : (st.jobs j).hw = some true) :
      Moves st (.processCb j) (st.processJob j)
  | depCb {e f} (hg : (st.entities e).cb = some (f, true)) (hf : st.signaled f) :
      Moves st (.depCb e) (st.entityWakeup e)
  | finish {j} (hf : (st.jobs j).finished) (hm : j ∈ st.mirror (st.jobs j).sched) :
      Moves st (.finish j) (st.jobFinish j)
  | killCb {j k} (hg : (st.jobs j).killWait = some k) (hf : (st.jobs k).finished) :
      Moves st (.killCb j) (st.killJobsCb j)
  | otherSignal {i} :
      Moves st (.otherSignal i) { st with others := Function.update st.others i true }

theorem threadStep_moves {st st' : State} {s : ℕ} (h : st.threadStep s = some st') :
    Moves st (.thread s) st' := by
  unfold threadStep at h
  split at h
  case h_1 hg =>
    cases h
    split
    · next hr => exact .room hg hr
    · next hr => exact .full hg (by simpa using hr)
  case h_4 hg =>
    split at h
    · next hq =>
      cases h
      exact .empty hg hq
    · next hq =>
      cases h
      exact .selected hg hq
  case h_2 | h_6 | h_11 => cases h
  case h_3 hg =>
    cases h
    exact .scan hg
  case h_5 hg =>
    cases h
    exact .dependency hg
  case h_7 hg =>
    cases h
    exact .addDependencyCb hg
  case h_8 hg =>
    cases h
    exact .take hg
  case h_9 hg =>
    cases h
    exact .count hg
  case h_10 hg =>
    cases h
    exact .jobBegin hg
  case h_12 hg =>
    cases h
    exact .post hg
  case h_13 hg =>
    cases h
    exact .attach hg

theorem step_moves {st st' : State} {ev : Event} (h : st.step ev = some st') :
    Moves st ev st' := by
  cases ev <;> simp only [step] at h
  case thread s => exact threadStep_moves h
  case publish | abandon | push | vmidGrab | runJob | kill | depCb | killCb =>
    split at h
    all_goals
      first
      | (cases h; done)
      | (obtain ⟨hg, h⟩ := Option.ite_none_right_eq_some.mp h
         cases h
         constructor <;> assumption)
      | (cases h
         constructor
         assumption)
  case blame | otherSignal =>
    cases h
    constructor
  all_goals
    obtain ⟨hg, h⟩ := Option.ite_none_right_eq_some.mp h
    cases h
    constructor <;> grind

end State

end Gsgpu.Sched
