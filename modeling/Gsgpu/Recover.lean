import Gsgpu.Basic
import Mathlib.Data.Fintype.Basic
import Mathlib.Data.List.FinRange

/-! Recovery of a hung GPU: the jobs on the mirror lists of the schedulers lose their callbacks on
the fences of the hardware, the fences are completed, and the GPU is reset. -/
namespace Gsgpu.Recover

/-- `GSGPU_MAX_RINGS`. -/
abbrev RingIdx := Fin 21

/-- `DRM_SCHED_PRIORITY_KERNEL`. -/
def priorityKernel : ℕ := 4

/-- `struct drm_sched_job` with its `s_fence`. The fence of the hardware is known by its number on
the ring, and `attached` tells that `s_fence->cb` is on its list. -/
structure Job where
  context : ℕ
  priority : ℕ
  karma : ℤ
  parent : Option ℕ
  attached : Bool
  error : Option Errno
  finished : Bool

/-- `struct drm_sched_entity`; `guilty` is none for a NULL pointer. -/
structure Entity where
  fenceContext : ℕ
  guilty : Option Bool

/-- A ring with its scheduler and its fence driver. The jobs of the scheduler are known by their
addresses, and the run queues are those below the kernel's. There are no jobs without a thread. -/
structure Ring where
  thread : Bool
  parked : Bool
  mirror : List ℕ
  jobs : ℕ → Job
  hwRqCount : ℤ
  numJobs : ℤ
  hangLimit : ℤ
  rqs : List (List Entity)
  syncSeq : UInt32
  lastSeq : UInt32
  hw : UInt32
  numFencesMask : UInt32
  fences : ℕ → Option ℕ
  idle : thread = false → mirror = []

/-- The rings of a device. Remembered here only: on which rings the last recovery has completed the
fences, and on which it has run the jobs again. -/
structure Device where
  rings : RingIdx → Option Ring
  gpuResetCounter : ℕ
  inGpuReset : Bool
  forced : Finset RingIdx
  recovered : Finset RingIdx

def Device.modify (d : Device) (i : RingIdx) (f : Ring → Ring) : Device :=
  { d with rings := Function.update d.rings i ((d.rings i).map f) }

/-- A fence has signaled, and `drm_sched_process_job` is called for the jobs that wait for it. -/
def Ring.signal (r : Ring) (fence : ℕ) : Ring :=
  let waits := fun a => (r.jobs a).parent = some fence ∧ (r.jobs a).attached
  { r with
    jobs := fun a =>
      if waits a then { r.jobs a with attached := false, finished := true } else r.jobs a
    hwRqCount := r.hwRqCount - r.mirror.countP fun a => waits a
    numJobs := r.numJobs - r.mirror.countP fun a => waits a }

/-- The loop of `gsgpu_fence_process` over the slots of the fences; it visits none twice. -/
def Ring.signalSlots : ℕ → UInt32 → UInt32 → Ring → Ring
  | 0, _, _, r => r
  | n + 1, lastSeq, seq, r =>
    let lastSeq := (lastSeq + 1) &&& r.numFencesMask
    let fence := r.fences lastSeq.toNat
    let r := { r with fences := Function.update r.fences lastSeq.toNat none }
    let r := match fence with
      | some fence => r.signal fence
      | none => r
    if lastSeq ≠ seq then r.signalSlots n lastSeq seq else r

/-- `gsgpu_fence_process`. -/
def Ring.fenceProcess (r : Ring) : Ring :=
  let lastSeq := r.lastSeq
  let r := { r with lastSeq := r.hw }
  if r.hw = lastSeq then r
  else r.signalSlots (r.numFencesMask.toNat + 1) (lastSeq &&& r.numFencesMask)
    (r.hw &&& r.numFencesMask)

/-- `gsgpu_fence_driver_force_completion`. -/
def Ring.forceCompletion (r : Ring) : Ring := { r with hw := r.syncSeq }.fenceProcess

/-- The loop of `drm_sched_hw_job_reset` over the mirror list. -/
def Ring.detach (r : Ring) : Ring :=
  let waits := fun a => (r.jobs a).parent.isSome ∧ (r.jobs a).attached
  { r with
    jobs := fun a => if a ∈ r.mirror ∧ waits a then
      { r.jobs a with parent := none, attached := false } else r.jobs a
    hwRqCount := r.hwRqCount - r.mirror.countP fun a => waits a }

/-- The first entity of the context, in the order of the run queues. -/
def markGuilty (context : ℕ) (mark : Bool) : List (List Entity) → List (List Entity)
  | [] => []
  | rq :: rqs =>
    match rq.findIdx? fun e => e.fenceContext = context with
    | some n =>
      rq.modify n (fun e => if mark then { e with guilty := e.guilty.map fun _ => true } else e) ::
        rqs
    | none => rq :: markGuilty context mark rqs

/-- The rest of `drm_sched_hw_job_reset`: a job that is not the kernel's is blamed, and its entity,
looked for in the run queues of the scheduler that is reset. -/
def Device.blame (d : Device) (i : RingIdx) (bad : RingIdx × ℕ) : Device :=
  match d.rings bad.1 with
  | none => d
  | some owner =>
    let job := owner.jobs bad.2
    if job.priority = priorityKernel then d
    else
      let job := { job with karma := job.karma + 1 }
      (d.modify bad.1 fun r => { r with jobs := Function.update r.jobs bad.2 job }).modify i
        fun r => { r with rqs := markGuilty job.context (owner.hangLimit < job.karma) r.rqs }

/-- `drm_sched_hw_job_reset`. -/
def Device.hwJobReset (d : Device) (i : RingIdx) (bad : Option (RingIdx × ℕ)) : Device :=
  match bad with
  | none => d.modify i Ring.detach
  | some bad => (d.modify i Ring.detach).blame i bad

/-- What `run_job` comes to: nothing, or a fence, which may have signaled already. -/
inductive RunJob
  | none
  | fence (fence : ℕ) (signaled : Bool)

/-- A job is run again, in the loop of `drm_sched_job_recovery`, with the context that is guilty. -/
def Ring.runAgain (run : ℕ → RunJob) (r : Ring) (guilty : Option ℕ) (a : ℕ) : Ring × Option ℕ :=
  let job := r.jobs a
  let guilty := if guilty = none ∧ r.hangLimit < job.karma then some job.context else guilty
  let job := if guilty = some job.context then { job with error := some .ecanceled } else job
  match run a with
  | .fence fence false =>
    ({ r with
      jobs := Function.update r.jobs a { job with parent := some fence, attached := true }
      hwRqCount := r.hwRqCount + 1 }, guilty)
  | .fence fence true =>
    ({ r with
      jobs := Function.update r.jobs a { job with parent := some fence, finished := true }
      numJobs := r.numJobs - 1 }, guilty)
  | .none =>
    ({ r with
      jobs := Function.update r.jobs a { job with finished := true }
      numJobs := r.numJobs - 1 }, guilty)

/-- `drm_sched_job_recovery`. -/
def Ring.jobRecovery (run : ℕ → RunJob) (r : Ring) : Ring :=
  (r.mirror.foldl (fun x a => x.1.runAgain run x.2 a) (r, none)).1

/-- The first loop of `gsgpu_device_gpu_recover`, for a ring. The ring of the given job is left as
it is. -/
def Device.block (job : Option (RingIdx × ℕ)) (d : Device) (i : RingIdx) : Device :=
  match d.rings i with
  | none => d
  | some r =>
    if !r.thread then d
    else
      let d := d.modify i fun r => { r with parked := true }
      if job.map Prod.fst = some i then d
      else
        let d := d.hwJobReset i job
        { d.modify i Ring.forceCompletion with forced := insert i d.forced }

/-- The call of `drm_sched_job_recovery` is between `#if 0` and `#endif`. -/
def recoveryPass : Bool := false

/-- The second loop, for a ring, with the result of the reset. -/
def Device.unblock (job : Option (RingIdx × ℕ)) (run : RingIdx → ℕ → RunJob) (result : ℤ)
    (d : Device) (i : RingIdx) : Device :=
  match d.rings i with
  | none => d
  | some r =>
    if !r.thread then d
    else
      let d := if recoveryPass ∧ (job = none ∨ job.map Prod.fst = some i) ∧ result = 0 then
        { d.modify i (Ring.jobRecovery (run i)) with recovered := insert i d.recovered }
      else d
      d.modify i fun r => { r with parked := false }

/-- What `gsgpu_device_reset` comes to: its result, and the fences that signaled meanwhile, such as
those of the tests of the rings. No scheduler runs. -/
structure Reset where
  result : ℤ
  signaled : RingIdx → List ℕ

def Device.reset (d : Device) (reset : Reset) : Device :=
  { d with rings := fun i => (d.rings i).map fun r => (reset.signaled i).foldl Ring.signal r }

/-- `gsgpu_device_gpu_recover` after its checks. -/
def Device.recover (d : Device) (job : Option (RingIdx × ℕ)) (reset : Reset)
    (run : RingIdx → ℕ → RunJob) : Device :=
  let d := { d with
    gpuResetCounter := d.gpuResetCounter + 1
    inGpuReset := true
    forced := ∅
    recovered := ∅ }
  let d := (List.finRange 21).foldl (Device.block job) d
  let d := d.reset reset
  let d := (List.finRange 21).foldl (Device.unblock job run reset.result) d
  { d with inGpuReset := false }

/-- `gsgpu_device_gpu_recover`; `hang` is what `gsgpu_device_ip_check_soft_reset` finds, and
`gpuRecovery` the parameter of the module. -/
def Device.gpuRecover (d : Device) (job : Option (RingIdx × ℕ)) (force hang : Bool)
    (gpuRecovery : ℤ) (reset : Reset) (run : RingIdx → ℕ → RunJob) : ℤ × Device :=
  if !force ∧ !hang then (0, d)
  else if !force ∧ (gpuRecovery = 0 ∨ gpuRecovery = -1) then (0, d)
  else (reset.result, d.recover job reset run)

/-- A recovery loses no job: one that was not finished is now, or waits for a fence, or was run
again; the fences of the ring of the given job are completed or its jobs are run again; and the
schedulers run. -/
structure NoneLost (d d' : Device) (job : Option (RingIdx × ℕ)) : Prop where
  jobs : ∀ i r, d.rings i = some r → ∀ a ∈ r.mirror, (r.jobs a).finished = false →
    i ∈ d'.recovered ∨ ∃ r', d'.rings i = some r' ∧
      ((r'.jobs a).finished ∨ (r'.jobs a).attached ∧ (r'.jobs a).parent.isSome)
  guilty : ∀ i a, job = some (i, a) → i ∈ d'.forced ∨ i ∈ d'.recovered
  unparked : ∀ i r', d'.rings i = some r' → r'.thread → r'.parked = false

variable {d : Device} {i k : RingIdx} {a : ℕ} {r : Ring} {job : Option (RingIdx × ℕ)}
  {run : RingIdx → ℕ → RunJob}

/-- A job that nothing will finish. -/
def Lost (j : Job) : Prop := j.finished = false ∧ ¬ (j.attached ∧ j.parent.isSome)

theorem lost_signal {fence : ℕ} (h : Lost (r.jobs a)) : Lost ((r.signal fence).jobs a) := by
  have hwaits : ¬ ((r.jobs a).parent = some fence ∧ (r.jobs a).attached) :=
    fun hw => h.2 ⟨hw.2, by simp [hw.1]⟩
  simpa [Ring.signal, hwaits] using h

theorem lost_signalSlots {n : ℕ} {lastSeq seq : UInt32} (h : Lost (r.jobs a)) :
    Lost ((r.signalSlots n lastSeq seq).jobs a) := by
  induction n generalizing r lastSeq with
  | zero => exact h
  | succ n ih =>
    simp only [Ring.signalSlots]
    split
    case isTrue =>
      apply ih
      split
      · exact lost_signal h
      · exact h
    case isFalse =>
      split
      · exact lost_signal h
      · exact h

theorem lost_forceCompletion (h : Lost (r.jobs a)) : Lost (r.forceCompletion.jobs a) := by
  simp only [Ring.forceCompletion, Ring.fenceProcess]
  split
  · exact h
  · exact lost_signalSlots h

/-- Its callback is taken off before the fences are completed. -/
theorem lost_detach (ha : a ∈ r.mirror) (h : (r.jobs a).finished = false) :
    Lost (r.detach.jobs a) := by
  simp only [Ring.detach, ha, true_and]
  split
  case isTrue => exact ⟨h, by simp⟩
  case isFalse hwaits => exact ⟨h, fun hw => hwaits ⟨hw.2, hw.1⟩⟩

theorem lost_signals {fences : List ℕ} (h : Lost (r.jobs a)) :
    Lost ((fences.foldl Ring.signal r).jobs a) := by
  induction fences generalizing r with
  | nil => exact h
  | cons fence fences ih => exact ih (lost_signal h)

/-- What the first loop does to a ring if there is no job. -/
def Ring.block (r : Ring) : Ring :=
  if r.thread then { r with parked := true }.detach.forceCompletion else r

/-- What the second loop does to a ring. -/
def Ring.unblock (r : Ring) : Ring := if r.thread then { r with parked := false } else r

theorem block_rings (d : Device) (i : RingIdx) :
    (d.block none i).rings = Function.update d.rings i ((d.rings i).map Ring.block) := by
  simp only [Device.block]
  split
  case h_1 hnone => rw [hnone, Option.map_none, ← hnone, Function.update_eq_self]
  case h_2 r hsome =>
    by_cases hthread : r.thread = true
    · simp [hthread, hsome, Device.modify, Device.hwJobReset, Ring.block]
    · have hsame : r.block = r := by simp [Ring.block, hthread]
      rw [hsome, Option.map_some, hsame, ← hsome, Function.update_eq_self]
      simp [hthread]

theorem unblock_rings (d : Device) (i : RingIdx) (result : ℤ) :
    (d.unblock job run result i).rings =
      Function.update d.rings i ((d.rings i).map Ring.unblock) := by
  simp only [Device.unblock]
  split
  case h_1 hnone => rw [hnone, Option.map_none, ← hnone, Function.update_eq_self]
  case h_2 r hsome =>
    by_cases hthread : r.thread = true
    · simp [hthread, hsome, Device.modify, Ring.unblock, recoveryPass]
    · have hsame : r.unblock = r := by simp [Ring.unblock, hthread]
      rw [hsome, Option.map_some, hsame, ← hsome, Function.update_eq_self]
      simp [hthread]

/-- A loop over the rings that does the same to each of them. -/
theorem foldl_rings {f : Device → RingIdx → Device} {g : Ring → Ring}
    (hf : ∀ d i, (f d i).rings = Function.update d.rings i ((d.rings i).map g)) (d : Device) :
    ((List.finRange 21).foldl f d).rings = fun i => (d.rings i).map g := by
  have hlist : ∀ (is : List RingIdx), is.Nodup → ∀ d : Device,
      (is.foldl f d).rings = fun i => if i ∈ is then (d.rings i).map g else d.rings i := by
    intro is
    induction is with
    | nil => exact fun _ _ => rfl
    | cons i is ih =>
      intro hnodup d
      obtain ⟨hi, his⟩ := List.nodup_cons.mp hnodup
      funext j
      rw [List.foldl_cons, ih his, hf]
      by_cases hj : j = i
      · subst hj
        simp [hi]
      · simp [hj]
  funext i
  simp [hlist _ (List.nodup_finRange 21) d]

theorem blame_logs {bad : RingIdx × ℕ} :
    (d.blame i bad).forced = d.forced ∧ (d.blame i bad).recovered = d.recovered := by
  simp only [Device.blame]
  split
  · exact ⟨rfl, rfl⟩
  · split <;> exact ⟨rfl, rfl⟩

theorem hwJobReset_logs :
    (d.hwJobReset i job).forced = d.forced ∧ (d.hwJobReset i job).recovered = d.recovered := by
  cases job with
  | none => exact ⟨rfl, rfl⟩
  | some bad => exact blame_logs

/-- The ring of the job is not completed, and no ring is recovered. -/
theorem block_logs :
    (∀ i' a, job = some (i', a) → i' ∈ (d.block job i).forced → i' ∈ d.forced) ∧
      (d.block job i).recovered = d.recovered := by
  simp only [Device.block]
  split
  case h_1 => exact ⟨fun _ _ _ h => h, rfl⟩
  case h_2 =>
    split
    case isTrue => exact ⟨fun _ _ _ h => h, rfl⟩
    case isFalse =>
      split
      case isTrue => exact ⟨fun _ _ _ h => h, rfl⟩
      case isFalse hother =>
        refine ⟨fun i' a hjob h => ?_, hwJobReset_logs.2⟩
        have hne : i' ≠ i := by
          rintro rfl
          exact hother (by rw [hjob]; rfl)
        rw [hwJobReset_logs.1] at h
        exact Finset.mem_of_mem_insert_of_ne h hne

theorem unblock_logs {result : ℤ} :
    (d.unblock job run result i).forced = d.forced ∧
      (d.unblock job run result i).recovered = d.recovered := by
  simp only [Device.unblock, recoveryPass]
  split
  · exact ⟨rfl, rfl⟩
  · split
    · exact ⟨rfl, rfl⟩
    · simp [Device.modify]

variable {reset : Reset} {is : List RingIdx}

theorem foldl_block_logs :
    (∀ i' a, job = some (i', a) → i' ∈ (is.foldl (Device.block job) d).forced → i' ∈ d.forced) ∧
      (is.foldl (Device.block job) d).recovered = d.recovered := by
  induction is generalizing d with
  | nil => exact ⟨fun _ _ _ h => h, rfl⟩
  | cons i is ih =>
    exact ⟨fun i' a hjob h => block_logs.1 i' a hjob (ih.1 i' a hjob h),
      ih.2.trans block_logs.2⟩

theorem foldl_unblock_logs {result : ℤ} :
    (is.foldl (Device.unblock job run result) d).forced = d.forced ∧
      (is.foldl (Device.unblock job run result) d).recovered = d.recovered := by
  induction is generalizing d with
  | nil => exact ⟨rfl, rfl⟩
  | cons i is ih => exact ⟨ih.1.trans unblock_logs.1, ih.2.trans unblock_logs.2⟩

/-- The ring of the given job is left out, and no ring is recovered. -/
theorem recover_logs :
    (∀ i a, job = some (i, a) → i ∉ (d.recover job reset run).forced) ∧
      (d.recover job reset run).recovered = ∅ := by
  simp only [Device.recover, foldl_unblock_logs.1, foldl_unblock_logs.2, Device.reset]
  refine ⟨fun i a hjob h => ?_, foldl_block_logs.2⟩
  exact absurd (foldl_block_logs.1 i a hjob h) (Finset.notMem_empty i)

theorem recover_unparked (hr : (d.recover job reset run).rings i = some r)
    (hthread : r.thread) : r.parked = false := by
  simp only [Device.recover] at hr
  rw [foldl_rings fun d i => unblock_rings d i _] at hr
  obtain ⟨r₀, -, rfl⟩ := Option.map_eq_some_iff.mp hr
  simp only [Ring.unblock] at hthread ⊢
  split_ifs at hthread ⊢ with h
  · rfl
  · exact absurd hthread h

/-- Without a job, every ring is treated the same way. -/
theorem recover_rings :
    (d.recover none reset run).rings = fun i =>
      (d.rings i).map fun r => ((reset.signaled i).foldl Ring.signal r.block).unblock := by
  simp only [Device.recover]
  rw [foldl_rings fun d i => unblock_rings d i _]
  funext i
  simp only [Device.reset]
  rw [foldl_rings block_rings]
  simp [Function.comp_def]

/-- A job that was not finished is lost. -/
theorem recover_lost (reset : Reset) (run : RingIdx → ℕ → RunJob) (hr : d.rings i = some r)
    (ha : a ∈ r.mirror) (hfin : (r.jobs a).finished = false) :
    ∃ r', (d.recover none reset run).rings i = some r' ∧ Lost (r'.jobs a) := by
  have hthread : r.thread = true := by
    by_contra hno
    rw [r.idle (by simpa using hno)] at ha
    cases ha
  have hblock : Lost (r.block.jobs a) := by
    rw [Ring.block, if_pos hthread]
    exact lost_forceCompletion (lost_detach (by exact ha) hfin)
  refine ⟨_, by simp only [recover_rings, hr, Option.map_some]; rfl, ?_⟩
  simp only [Ring.unblock]
  split
  · exact lost_signals hblock
  · exact lost_signals hblock

theorem not_noneLost (reset : Reset) (run : RingIdx → ℕ → RunJob) (hr : d.rings i = some r)
    (ha : a ∈ r.mirror) (hfin : (r.jobs a).finished = false) :
    ¬ NoneLost d (d.recover none reset run) none := by
  intro h
  obtain ⟨r', hr', hlost⟩ := recover_lost reset run hr ha hfin
  rcases h.jobs i r hr a ha hfin with hrec | ⟨r'', hr'', hdone⟩
  · rw [recover_logs.2] at hrec
    exact absurd hrec (Finset.notMem_empty _)
  · obtain rfl : r' = r'' := Option.some.inj (hr'.symm.trans hr'')
    rcases hdone with hdone | hdone
    · exact absurd hdone (by simp [hlost.1])
    · exact hlost.2 hdone

theorem gpuRecover_eq {force hang : Bool} {gpuRecovery : ℤ}
    (hreset : force ∨ hang ∧ gpuRecovery ≠ 0 ∧ gpuRecovery ≠ -1) :
    d.gpuRecover job force hang gpuRecovery reset run =
      (reset.result, d.recover job reset run) := by
  have hhang : ¬ (!force ∧ !hang) := by
    rcases hreset with rfl | ⟨rfl, -⟩ <;> simp
  have hparam : ¬ (!force ∧ (gpuRecovery = 0 ∨ gpuRecovery = -1)) := by
    rcases hreset with rfl | ⟨-, h0, h1⟩
    · simp
    · simp [h0, h1]
  rw [Device.gpuRecover, if_neg hhang, if_neg hparam]

/-- A recovery that resets the GPU loses no job only if it is not for a job, and there was no job
left to finish. -/
theorem gpu_recover_loses_none_iff {force hang : Bool} {gpuRecovery : ℤ}
    (hreset : force ∨ hang ∧ gpuRecovery ≠ 0 ∧ gpuRecovery ≠ -1) :
    NoneLost d (d.gpuRecover job force hang gpuRecovery reset run).2 job ↔
      job = none ∧ ∀ i r, d.rings i = some r → ∀ a ∈ r.mirror, (r.jobs a).finished := by
  rw [gpuRecover_eq hreset]
  constructor
  · intro h
    have hjob : job = none := by
      cases job with
      | none => rfl
      | some bad =>
        rcases h.guilty bad.1 bad.2 rfl with hf | hr
        · exact absurd hf (recover_logs.1 bad.1 bad.2 rfl)
        · rw [recover_logs.2] at hr
          exact absurd hr (Finset.notMem_empty _)
    subst hjob
    refine ⟨rfl, fun i r hr a ha => ?_⟩
    by_contra hfin
    rw [Bool.not_eq_true] at hfin
    exact not_noneLost reset run hr ha hfin h
  · rintro ⟨rfl, hall⟩
    refine ⟨fun i r hr a ha hfin => ?_, nofun, fun i r' hr' => recover_unparked hr'⟩
    exact absurd (hall i r hr a ha) (by simp [hfin])

/-- A ring with one job, whose fence is the first of the ring. -/
def oneJob (finished : Bool) : Ring where
  thread := true
  parked := false
  mirror := [0]
  jobs := fun _ => ⟨7, 1, 0, some 1, !finished, none, finished⟩
  hwRqCount := 1
  numJobs := 1
  hangLimit := 0
  rqs := [[], [⟨7, some false⟩], [], []]
  syncSeq := 1
  lastSeq := 0
  hw := 0
  numFencesMask := 3
  fences := fun n => if n = 1 then some 1 else none
  idle := nofun

/-- The first ring alone. -/
def oneRing (r : Ring) : Device :=
  ⟨fun i => if i = 0 then some r else none, 0, false, ∅, ∅⟩

/-- A reset during which no fence signals. -/
def quietReset : Reset := ⟨0, fun _ => []⟩

theorem gpu_recover_loses_none_iff_finished :
    NoneLost (oneRing (oneJob true))
      ((oneRing (oneJob true)).gpuRecover none true false (-1) quietReset fun _ _ => .none).2
      none := by
  refine (gpu_recover_loses_none_iff (.inl rfl)).mpr ⟨rfl, fun i r hr a ha => ?_⟩
  simp only [oneRing] at hr
  split at hr
  case isTrue =>
    cases hr
    rfl
  case isFalse => cases hr

/-- The fence of the job is completed after its callback is gone. -/
theorem gpu_recover_loses_job :
    ¬ ∀ (d : Device) (job : Option (RingIdx × ℕ)) (force hang : Bool) (gpuRecovery : ℤ)
      (reset : Reset) (run : RingIdx → ℕ → RunJob),
      (force ∨ hang ∧ gpuRecovery ≠ 0 ∧ gpuRecovery ≠ -1) →
      (d.gpuRecover job force hang gpuRecovery reset run).1 = 0 →
      NoneLost d (d.gpuRecover job force hang gpuRecovery reset run).2 job := by
  intro h
  have hnone := h (oneRing (oneJob false)) none true false (-1) quietReset (fun _ _ => .none)
    (.inl rfl) rfl
  rw [gpuRecover_eq (.inl rfl)] at hnone
  exact not_noneLost (i := 0) quietReset (fun _ _ => .none)
    (by rfl : (oneRing (oneJob false)).rings 0 = some (oneJob false)) (List.mem_singleton.mpr rfl)
    rfl hnone

end Gsgpu.Recover
