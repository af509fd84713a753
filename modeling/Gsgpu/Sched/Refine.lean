import Gsgpu.Sched.Links
import Gsgpu.Sched.Counted

/-! The scheduler does to the jobs what the pipeline says, one step at a time, and in between nothing
that the pipeline speaks of. -/
namespace Gsgpu.Sched

/-- What is linked to the stage of a job. -/
def Job.life (x : Job) : ℕ × ℕ × Stage × Bool × Bool × Bool × ℕ × Option ℕ :=
  (x.entity, x.sched, x.stage, x.scheduled, x.finished, x.attached, x.freed, x.killWait)

theorem Job.Consistent.of_life {x y : Job} (h : x.Consistent) (heq : y.life = x.life) :
    y.Consistent := by
  unfold Job.life at heq
  simp only [Prod.mk.injEq] at heq
  obtain ⟨-, -, hstage, hsch, hfin, hatt, hfreed, hkill⟩ := heq
  constructor
  · rw [hsch, hstage]
    exact h.scheduled
  · rw [hfin, hstage]
    exact h.finished
  · rw [hatt, hstage]
    exact h.attached
  · rw [hfreed, hstage]
    exact h.freed
  · rw [hkill, hstage]
    exact h.killWait

/-- A job goes to a stage that its flags are those of. -/
theorem Job.Consistent.move {x y : Job} (h : x.Consistent) {a : Stage} (hstage : x.stage = a)
    (hscheduled : x.scheduled = a.isScheduled → y.scheduled = y.stage.isScheduled)
    (hfinished : x.finished = a.isFinished → y.finished = y.stage.isFinished)
    (hattached : x.attached = decide (a = .attached) →
      y.attached = decide (y.stage = .attached))
    (hfreed : x.freed = (if a.isFreed then 1 else 0) → y.freed = if y.stage.isFreed then 1 else 0)
    (hkill : x.killWait.isSome = decide (a = .dying) →
      y.killWait.isSome = decide (y.stage = .dying)) : y.Consistent := by
  subst hstage
  exact ⟨hscheduled h.scheduled, hfinished h.finished, hattached h.attached, hfreed h.freed,
    hkill h.killWait⟩

namespace State

variable {st st' st'' : State} {s e j : ℕ}

/-- The pipeline and the flags are the same. -/
structure Quiet (st st' : State) : Prop where
  next : st'.next = st.next
  mirror : st'.mirror = st.mirror
  hwRqCount : st'.hwRqCount = st.hwRqCount
  limit : st'.hwSubmissionLimit = st.hwSubmissionLimit
  pushed : st'.pushed = st.pushed
  killed : st'.killed = st.killed
  taken : st'.taken = st.taken
  ran : st'.ran = st.ran
  life : ∀ j, (st'.jobs j).life = (st.jobs j).life
  queue : ∀ e, (st'.entities e).queue = (st.entities e).queue
  held : ∀ s, (st'.threads s).held = (st.threads s).held

theorem Quiet.refl (st : State) : Quiet st st := by constructor <;> intros <;> rfl

theorem Quiet.trans (h : Quiet st st') (h' : Quiet st' st'') : Quiet st st'' where
  next := h'.next.trans h.next
  mirror := h'.mirror.trans h.mirror
  hwRqCount := h'.hwRqCount.trans h.hwRqCount
  limit := h'.limit.trans h.limit
  pushed := h'.pushed.trans h.pushed
  killed := h'.killed.trans h.killed
  taken := h'.taken.trans h.taken
  ran := h'.ran.trans h.ran
  life j := (h'.life j).trans (h.life j)
  queue e := (h'.queue e).trans (h.queue e)
  held s := (h'.held s).trans (h.held s)

theorem Quiet.pipeline (h : Quiet st st') : st'.pipeline = st.pipeline := by
  have hentity : ∀ j, (st'.jobs j).entity = (st.jobs j).entity := fun j =>
    congrArg Prod.fst (h.life j)
  have hsched : ∀ j, (st'.jobs j).sched = (st.jobs j).sched := fun j =>
    congrArg (fun x => x.2.1) (h.life j)
  have hstage : ∀ j, (st'.jobs j).stage = (st.jobs j).stage := fun j =>
    congrArg (fun x => x.2.2.1) (h.life j)
  ext1
  case next => exact h.next
  case mirror => exact h.mirror
  case hwRqCount => exact h.hwRqCount
  case hwSubmissionLimit => exact h.limit
  case pushed => exact h.pushed
  case killed => exact h.killed
  case taken => exact h.taken
  case ran => exact h.ran
  case entity => exact funext hentity
  case sched => exact funext hsched
  case stage => exact funext hstage
  case queue => exact funext h.queue
  case hand => exact funext fun s => congrArg (Option.map Prod.fst) (h.held s)

theorem Quiet.flagged (h : Quiet st st') (hf : Flagged st) : Flagged st' :=
  fun j => (hf j).of_life (h.life j)

theorem quiet_setThread {t : Thread} (ht : t.held = (st.threads s).held) :
    Quiet st (st.setThread s t) := by
  constructor
  case held =>
    intro i
    by_cases hi : i = s
    · subst hi
      simpa [setThread] using ht
    · simp [setThread, hi]
  all_goals intros; rfl

theorem quiet_setEntity {f : Entity → Entity}
    (hf : (f (st.entities e)).queue = (st.entities e).queue) : Quiet st (st.setEntity e f) := by
  constructor
  case queue =>
    intro i
    by_cases hi : i = e
    · subst hi
      simpa [setEntity] using hf
    · simp [setEntity, hi]
  all_goals intros; rfl

theorem quiet_setJob {f : Job → Job} (hf : (f (st.jobs j)).life = (st.jobs j).life) :
    Quiet st (st.setJob j f) := by
  constructor
  case life =>
    intro i
    by_cases hi : i = j
    · subst hi
      simpa [setJob] using hf
    · simp [setJob, hi]
  all_goals intros; rfl

theorem quiet_wakeup (st : State) (s : ℕ) : Quiet st (st.wakeup s) := by
  rw [wakeup_eq]
  apply quiet_setThread
  split
  · exact held_woken _
  · rfl

theorem quiet_rqAddEntity (st : State) (rq : Rq) (e : ℕ) : Quiet st (st.rqAddEntity rq e) := by
  rw [rqAddEntity_eq]
  have h : Quiet st (st.setEntity e fun x => { x with listed := true }) := quiet_setEntity rfl
  constructor
  case queue => exact h.queue
  all_goals intros; rfl

theorem quiet_rqRemoveEntity (st : State) (rq : Rq) (e : ℕ) :
    Quiet st (st.rqRemoveEntity rq e) := by
  rw [rqRemoveEntity_eq]
  have h : Quiet st (st.setEntity e fun x => { x with listed := false }) := quiet_setEntity rfl
  constructor
  case queue => exact h.queue
  all_goals intros; rfl

theorem quiet_selectRq (st : State) (e : ℕ) : Quiet st (st.selectRq e) := by
  obtain hsame | ⟨-, -, rq, -, heq⟩ := st.selectRq_cases e
  · rw [hsame]
    exact .refl st
  · rw [heq]
    exact (quiet_rqRemoveEntity st _ e).trans (quiet_setEntity rfl)

theorem quiet_enlist (st : State) (e : ℕ) : Quiet st (st.enlist e) := by
  unfold enlist
  split
  · exact quiet_setEntity rfl
  · exact (quiet_rqAddEntity st _ e).trans (quiet_setEntity rfl)

theorem quiet_setPriority (st : State) (e priority : ℕ) : Quiet st (st.setPriority e priority) := by
  unfold setPriority
  dsimp only
  exact (((quiet_setEntity rfl).trans (quiet_rqRemoveEntity _ _ e)).trans
    (quiet_setEntity rfl)).trans (quiet_rqAddEntity _ _ e)

theorem quiet_finiPark (st : State) (e : ℕ)
    (hg : (st.entities e).queue = [] ∨ st.mayPark (st.entities e).rq.sched) :
    Quiet st (st.finiPark e) := by
  unfold finiPark
  split
  · exact quiet_setEntity rfl
  · next hq =>
    have hheld : Thread.check.held = (st.threads (st.entities e).rq.sched).held := by
      cases hg with
      | inl h => simp [h] at hq
      | inr h =>
        unfold mayPark at h
        cases ht : st.threads (st.entities e).rq.sched <;> simp [ht, Thread.held] at h ⊢
    exact (quiet_setThread hheld).trans (quiet_setEntity rfl)

theorem quiet_dependency (hg : st.threads s = .depend e j) : Quiet st (st.dependency s e j) := by
  have hheld : ∀ t : Thread, t.held = none → ∀ st', Quiet st st' → st'.threads s = .depend e j →
      Quiet st (st'.setThread s t) := by
    intro t ht st' hq hs
    exact hq.trans (quiet_setThread (by rw [ht, hs]; rfl))
  have hjob : ∀ sync, Quiet st (st.setJob j fun x => { x with sync := sync }) :=
    fun sync => quiet_setJob rfl
  unfold dependency
  dsimp only
  split
  · next f _ => exact hheld (.adding e j f) rfl _ ((hjob _).trans (quiet_setEntity rfl)) hg
  · split
    · exact hheld (.grab e j) rfl _ (hjob _) hg
    · exact hheld (.taking e j) rfl _ ((hjob _).trans (quiet_setEntity rfl)) hg

theorem quiet_addDependencyCb {f : Fence} (hg : st.threads s = .adding e j f) :
    Quiet st (st.addDependencyCb s e j f) := by
  have hheld : ∀ t : Thread, t.held = none → ∀ st', Quiet st st' → st'.threads s = .adding e j f →
      Quiet st (st'.setThread s t) := by
    intro t ht st' hq hs
    exact hq.trans (quiet_setThread (by rw [ht, hs]; rfl))
  have hwait : Quiet st (st.waitFor s e j f) := by
    unfold waitFor
    split
    · exact hheld (.depend e j) rfl _ (.refl st) hg
    · exact hheld .check rfl _ (quiet_setEntity rfl) hg
  unfold addDependencyCb
  split
  · exact hwait
  · split
    · exact hheld (.depend e j) rfl _ (.refl st) hg
    · split
      · dsimp only
        split
        · exact hheld (.depend e j) rfl _ (quiet_setEntity rfl) hg
        · exact hheld .check rfl _ ((quiet_setEntity rfl).trans (quiet_setEntity rfl)) hg
      · exact hwait

theorem quiet_scan {p : ℕ} {woken : Bool} (hg : st.threads s = .scan p woken) :
    Quiet st (st.scan s p woken) := by
  have hheld : ∀ t : Thread, t.held = none → Quiet st (st.setThread s t) := by
    intro t ht
    exact quiet_setThread (by rw [ht, hg]; rfl)
  unfold scan
  split
  · next e _ =>
    have h := hheld (.selected e) rfl
    constructor
    case held => exact h.held
    all_goals intros; rfl
  · split
    · split
      · exact hheld .check rfl
      · exact hheld .asleep rfl
    · next p _ => exact hheld (.scan p woken) rfl

attribute [local grind =] Function.update_apply
attribute [local grind] Thread.held

/-- One job is replaced by a consistent one. -/
theorem Flagged.update (hf : Flagged st) {x : Job}
    (hjobs : st'.jobs = Function.update st.jobs j x) (hx : x.Consistent) : Flagged st' := by
  intro i
  rw [hjobs]
  by_cases hi : i = j
  · rw [hi, Function.update_self]
    exact hx
  · rw [Function.update_of_ne hi]
    exact hf i

/-- What happens to the pipeline: nothing, or one of its steps. -/
def Follows (st st' : State) : Prop :=
  st'.pipeline = st.pipeline ∨ Pipeline.Step st.pipeline st'.pipeline

theorem Follows.of_step {q : Pipeline} (h : Pipeline.Step st.pipeline q) (heq : st'.pipeline = q) :
    Follows st st' := .inr (heq ▸ h)

theorem Quiet.follows (h : Quiet st st') : Follows st st' := .inl h.pipeline

theorem follows_makeJob (st : State) (e : ℕ) (deps : List Fence) (vm : Bool) :
    Follows st (st.makeJob e deps vm) := by
  apply Follows.of_step (Pipeline.Step.make e (st.entities e).rq.sched)
  ext1 <;> simp only [State.pipeline, State.makeJob, State.setEntity, Pipeline.setStage]
  case entity | sched | stage | queue => funext i; grind

theorem flagged_makeJob (hf : Flagged st) (deps : List Fence) (vm : Bool) :
    Flagged (st.makeJob e deps vm) :=
  hf.update rfl ⟨rfl, rfl, rfl, rfl, rfl⟩

theorem follows_pushJob (hs : Linked st) (hg : (st.entities e).pusher = .published j) :
    Follows st (st.pushJob e j) := by
  obtain ⟨hstage, hentity, -, hlast⟩ := hs.made e j (by rw [hg]; rfl)
  apply Follows.of_step (Pipeline.Step.push (j := j) (e := e) hstage hentity hlast)
  ext1 <;> simp only [State.pipeline, State.pushJob, State.setEntity, State.setJob,
    Pipeline.setStage]
  case entity | sched | stage | queue => funext i; grind

theorem flagged_pushJob (hf : Flagged st) (hs : Linked st)
    (hg : (st.entities e).pusher = .published j) : Flagged (st.pushJob e j) :=
  hf.update rfl ((hf j).move (hs.made e j (by rw [hg]; rfl)).1 id id id id id)

theorem follows_take (hs : Linked st) (hp : st.pipeline.Placed) (hg : st.threads s = .taking e j)
    (hroom : st.hwRqCount s < st.hwSubmissionLimit s) : Follows st (st.take s e j) := by
  have hfront : (st.threads s).front = some (e, j) := by
    rw [hg]
    rfl
  have hentity := entity_of_front hfront
  obtain ⟨rest, hq⟩ := hs.front hfront
  obtain ⟨hrq, hphase, -⟩ := hs.at_entity s e hentity
  obtain ⟨hstage, he⟩ := (hp.queued e j).mp (by simp [State.pipeline, hq])
  have hsched := (hs.queued e j (by simp [hq])).trans hrq
  have hhand : st.pipeline.hand s = none := by
    simp [State.pipeline, hg, Thread.held]
  have hkilled : st.pipeline.killed e = [] := by
    by_contra hne
    have := hs.killed e hne
    grind
  apply Follows.of_step (Pipeline.Step.take hstage he hq hsched hhand hroom hkilled
    fun k hk => hs.no_unrun hp hentity hk)
  ext1 <;> simp only [State.pipeline, State.take, State.setEntity, State.setJob, State.setThread,
    Pipeline.setStage]
  case entity | sched | stage | queue | hand => funext i; grind

theorem flagged_take (hf : Flagged st) (hs : Linked st) (hp : st.pipeline.Placed)
    (hg : st.threads s = .taking e j) : Flagged (st.take s e j) := by
  obtain ⟨rest, hq⟩ := hs.front (show (st.threads s).front = some (e, j) by rw [hg]; rfl)
  have hstage : (st.jobs j).stage = .queued :=
    ((hp.queued e j).mp (by simp [State.pipeline, hq])).1
  exact hf.update rfl ((hf j).move hstage id id id id id)

theorem follows_count (hs : Linked st) (hg : st.threads s = .popped j) :
    Follows st (st.count s j) := by
  obtain ⟨hstage, hsched⟩ := hs.held s j .popped (by rw [hg]; rfl)
  subst hsched
  apply Follows.of_step (Pipeline.Step.count hstage)
  ext1 <;> simp only [State.pipeline, State.count, State.setJob, State.setThread,
    Pipeline.setStage]
  case entity | sched | stage | hand => funext i; grind

theorem follows_jobBegin (hs : Linked st) (hg : st.threads s = .counted j) :
    Follows st (st.jobBegin s j) := by
  obtain ⟨hstage, hsched⟩ := hs.held s j .counted (by rw [hg]; rfl)
  subst hsched
  apply Follows.of_step (Pipeline.Step.begin hstage)
  ext1 <;> simp only [State.pipeline, State.jobBegin, State.setJob, State.setThread,
    Pipeline.setStage]
  case entity | sched | stage | hand => funext i; grind

theorem follows_runJob (hs : Linked st) (lost : Bool) (fence : Option Bool)
    (hg : st.threads s = .begun j) : Follows st (st.runJob s j lost fence) := by
  obtain ⟨hstage, hsched⟩ := hs.held s j .begun (by rw [hg]; rfl)
  subst hsched
  apply Follows.of_step (Pipeline.Step.run hstage)
  ext1 <;> simp only [State.pipeline, State.runJob, State.setJob, State.setThread,
    Pipeline.setStage]
  case entity | sched | stage | hand => funext i; grind

theorem follows_post (hs : Linked st) (hg : st.threads s = .ran j) :
    Follows st (st.post s j) := by
  obtain ⟨hstage, hsched⟩ := hs.held s j .ran (by rw [hg]; rfl)
  subst hsched
  apply Follows.of_step (Pipeline.Step.post hstage)
  ext1 <;> simp only [State.pipeline, State.post, State.fenceScheduled, State.setJob,
    State.setThread, Pipeline.setStage]
  case entity | sched | stage | hand | queue => funext i; grind

theorem follows_processJob (hstage : (st.jobs j).stage = .attached) :
    Follows st (st.processJob j) := by
  apply Follows.of_step (Pipeline.Step.process hstage)
  ext1 <;> simp only [State.pipeline, State.processJob, State.wake, State.setJob, State.setThread,
    Pipeline.setStage]
  case entity | sched | stage | hand => funext i; grind

theorem follows_attach (hs : Linked st) (hg : st.threads s = .posted j) :
    Follows st (st.attach s j) := by
  obtain ⟨hstage, hsched⟩ := hs.held s j .posted (by rw [hg]; rfl)
  subst hsched
  unfold State.attach
  split
  · apply Follows.of_step (Pipeline.Step.attach hstage)
    ext1 <;> simp only [State.pipeline, State.setJob, State.setThread, Pipeline.setStage]
    case entity | sched | stage | hand => funext i; grind
  · apply Follows.of_step (Pipeline.Step.passed hstage)
    ext1 <;> simp only [State.pipeline, State.processJob, State.wake, State.setJob,
      State.setThread, Pipeline.setStage]
    case entity | sched | stage | hand => funext i; grind

theorem follows_jobFinish (hstage : (st.jobs j).stage = .finished) :
    Follows st (st.jobFinish j) := by
  apply Follows.of_step (Pipeline.Step.finish hstage)
  ext1 <;> simp only [State.pipeline, State.jobFinish, State.setJob, Pipeline.setStage]
  case entity | sched | stage => funext i; grind

theorem follows_killJobsCb (hstage : (st.jobs j).stage = .dying) :
    Follows st (st.killJobsCb j) := by
  apply Follows.of_step (Pipeline.Step.bury hstage)
  ext1 <;> simp only [State.pipeline, State.killJobsCb, State.setJob, Pipeline.setStage]
  case entity | sched | stage => funext i; grind

theorem follows_killJob {rest : List ℕ} (hp : st.pipeline.Placed)
    (hq : (st.entities e).queue = j :: rest) : Follows st (st.killJob e j) := by
  obtain ⟨hstage, he⟩ := (hp.queued e j).mp (by simp [State.pipeline, hq])
  have hstep := fun a ha => @Pipeline.Step.kill st.pipeline e j rest a ha hstage he hq
  unfold State.killJob
  dsimp only
  split
  · apply Follows.of_step (hstep .dead (.inr rfl))
    ext1 <;> simp only [State.pipeline, State.killJobsCb, State.fenceScheduled, State.setEntity,
      State.setJob, Pipeline.setStage]
    case entity | sched | stage | queue => funext i; grind
  · split
    · apply Follows.of_step (hstep .dead (.inr rfl))
      ext1 <;> simp only [State.pipeline, State.killJobsCb, State.fenceScheduled, State.setEntity,
        State.setJob, Pipeline.setStage]
      case entity | sched | stage | queue => funext i; grind
    · apply Follows.of_step (hstep .dying (.inl rfl))
      ext1 <;> simp only [State.pipeline, State.fenceScheduled, State.setEntity,
        State.setJob, Pipeline.setStage]
      case entity | sched | stage | queue => funext i; grind

theorem flagged_count (hf : Flagged st) (hs : Linked st) (hg : st.threads s = .popped j) :
    Flagged (st.count s j) :=
  hf.update rfl ((hf j).move (hs.held s j .popped (by rw [hg]; rfl)).1 id id id id id)

theorem flagged_jobBegin (hf : Flagged st) (hs : Linked st) (hg : st.threads s = .counted j) :
    Flagged (st.jobBegin s j) :=
  hf.update rfl ((hf j).move (hs.held s j .counted (by rw [hg]; rfl)).1 id id id id id)

theorem flagged_runJob (hf : Flagged st) (hs : Linked st) (lost : Bool) (fence : Option Bool)
    (hg : st.threads s = .begun j) : Flagged (st.runJob s j lost fence) :=
  hf.update rfl ((hf j).move (hs.held s j .begun (by rw [hg]; rfl)).1 id id id id id)

theorem flagged_post (hf : Flagged st) (hs : Linked st) (hg : st.threads s = .ran j) :
    Flagged (st.post s j) := by
  have hjobs : (st.post s j).jobs =
      Function.update st.jobs j { st.jobs j with scheduled := true, stage := .posted } := by
    simp [State.post, State.fenceScheduled, State.setJob, State.setThread]
  exact hf.update hjobs ((hf j).move (hs.held s j .ran (by rw [hg]; rfl)).1 (fun _ => rfl) id id id
    id)

theorem flagged_processJob (hf : Flagged st)
    (hstage : (st.jobs j).stage = .attached ∨ (st.jobs j).stage = .posted) :
    Flagged (st.processJob j) := by
  cases hstage with
  | inl h => exact hf.update rfl ((hf j).move h id (fun _ => rfl) (fun _ => rfl) id id)
  | inr h => exact hf.update rfl ((hf j).move h id (fun _ => rfl) (fun _ => rfl) id id)

theorem flagged_attach (hf : Flagged st) (hs : Linked st) (hg : st.threads s = .posted j) :
    Flagged (st.attach s j) := by
  have hstage := (hs.held s j .posted (by rw [hg]; rfl)).1
  unfold State.attach
  split
  · exact hf.update rfl ((hf j).move hstage id id (fun _ => rfl) id id)
  · exact flagged_processJob hf (.inr hstage)

theorem flagged_jobFinish (hf : Flagged st) (hstage : (st.jobs j).stage = .finished) :
    Flagged (st.jobFinish j) :=
  hf.update rfl ((hf j).move hstage id id id (congrArg (· + 1)) id)

theorem flagged_killJobsCb (hf : Flagged st) (hstage : (st.jobs j).stage = .dying) :
    Flagged (st.killJobsCb j) :=
  hf.update rfl ((hf j).move hstage id (fun _ => rfl) id (congrArg (· + 1)) fun _ => rfl)

theorem flagged_killJob {rest : List ℕ} (hf : Flagged st) (hp : st.pipeline.Placed)
    (hq : (st.entities e).queue = j :: rest) : Flagged (st.killJob e j) := by
  have hstage : (st.jobs j).stage = .queued :=
    ((hp.queued e j).mp (by simp [State.pipeline, hq])).1
  have hdead : ∀ st' : State, st'.jobs = Function.update st.jobs j
      { st.jobs j with
        scheduled := true
        error := some (.other 3)
        finished := true
        killWait := none
        freed := (st.jobs j).freed + 1
        stage := .dead } → Flagged st' := by
    intro st' hjobs
    exact hf.update hjobs ((hf j).move hstage (fun _ => rfl) (fun _ => rfl) id (congrArg (· + 1))
      fun _ => rfl)
  have hdying : ∀ (st' : State) (k : ℕ), st'.jobs = Function.update st.jobs j
      { st.jobs j with
        scheduled := true
        error := some (.other 3)
        killWait := some k
        stage := .dying } → Flagged st' := by
    intro st' k hjobs
    exact hf.update hjobs ((hf j).move hstage (fun _ => rfl) id id id fun _ => rfl)
  unfold State.killJob
  dsimp only
  split
  · apply hdead
    simp [State.killJobsCb, State.fenceScheduled, State.setEntity, State.setJob]
  · next k _ =>
    split
    · apply hdead
      simp [State.killJobsCb, State.fenceScheduled, State.setEntity, State.setJob]
    · apply hdying _ k
      simp [State.fenceScheduled, State.setEntity, State.setJob]

theorem follows_reset (hf : Flagged st) (hp : st.pipeline.Placed) (hheld : st.mayPark s) :
    Follows st (st.reset s) := by
  have hattached : ∀ j, (st.jobs j).attached = decide ((st.jobs j).stage = .attached) :=
    fun j => (hf j).attached
  have hmirror := hp.mirrored s
  apply Follows.of_step (Pipeline.Step.reset s fun j => (st.jobs j).hw = some false)
  simp only [State.pipeline] at hmirror
  ext1 <;> simp only [State.pipeline, State.reset, State.setThread]
  case entity | sched | stage => funext i; grind
  case hand =>
    funext i
    unfold mayPark at hheld
    grind
  case hwRqCount =>
    congr 3
    apply List.countP_congr
    intro i _
    simp [hattached]

theorem flagged_reset (hf : Flagged st) (s : ℕ) : Flagged (st.reset s) := by
  intro j
  simp only [State.reset, State.setThread]
  split
  · next h =>
    simp only [Bool.and_eq_true] at h
    have hattached := (hf j).attached
    rw [h.2.1] at hattached
    exact (hf j).move (of_decide_eq_true hattached.symm) id id (fun _ => rfl) id id
  · exact hf j

end State

end Gsgpu.Sched
