import Gsgpu.Sched.Balance

/-! A job is run when nothing it depends on is still to come: what it waits for has signaled, or has
been put on the same ring before it. -/
namespace Gsgpu.Sched.State

variable {st st' : State} {s e j : ℕ}

/-- Whether a dependency of a job needs no more waiting. -/
def Handled (st : State) (j : ℕ) (f : Fence) : Prop :=
  st.signaled f ∨ ∃ k, f.toDrmSchedFence = some k ∧
    ((st.jobs k).entity = (st.jobs j).entity ∨
      (st.jobs k).sched = (st.jobs j).sched ∧ (st.jobs k).scheduled)

/-- Whether the callback of a job's entity is for a dependency of the job. -/
def Blocks (st : State) (j : ℕ) (f : Fence) : Prop :=
  (st.entities (st.jobs j).entity).cb = some (f, true) ∨
    ∃ k, f.toDrmSchedFence = some k ∧ (st.jobs k).sched = (st.jobs j).sched ∧
      (st.entities (st.jobs j).entity).cb = some (.scheduled k, false)

/-- Whether a dependency of a job is in the hands of the scheduler. -/
def Pending (st : State) (j : ℕ) (f : Fence) : Prop :=
  (∃ s e, st.threads s = .adding e j f) ∨ Blocks st j f

/-- At its end, or past it. -/
def Phase.ended : Phase → Bool
  | .killing | .gone => true
  | _ => false

/-- No dependency is lost before its job is run. -/
structure Waiting (st : State) : Prop where
  deps : ∀ j f k, f ∈ (st.jobs j).deps → f.toDrmSchedFence = some k →
    (st.jobs k).published ∧ ((st.jobs k).entity = (st.jobs j).entity → k < j)
  sync : ∀ j, ∀ f ∈ (st.jobs j).sync, f ∈ (st.jobs j).deps
  published : ∀ k, (st.jobs k).published → (st.jobs k).stage ≠ .unborn ∧
    (k ∈ st.pushed (st.jobs k).entity ∨
      (st.entities (st.jobs k).entity).pusher = .published k)
  free : ∀ s e, (st.threads s).entity = some e → (st.entities e).cb = none
  depends : ∀ e, (st.entities e).cb ≠ none → (st.entities e).dependency ≠ none
  adding : ∀ s e j f, st.threads s = .adding e j f → f ∈ (st.jobs j).deps
  known : ∀ s e j f, st.threads s = .adding e j f → (st.entities e).dependency ≠ none
  empty : ∀ s e j, st.threads s = .taking e j ∨ st.threads s = .grab e j → (st.jobs j).sync = []
  waits : ∀ j, (st.jobs j).stage = .made ∨ (st.jobs j).stage = .queued →
    Phase.ended (st.entities (st.jobs j).entity).phase = false →
      ∀ f ∈ (st.jobs j).deps, f ∈ (st.jobs j).sync ∨ Handled st j f ∨ Pending st j f
  handled : ∀ j, (st.jobs j).stage.beforeRun → ∀ f ∈ (st.jobs j).deps, Handled st j f

/-- What has signaled stays so, and the jobs that are known stay what they are. -/
structure Grows (st st' : State) : Prop where
  job : ∀ k, (st.jobs k).stage ≠ .unborn → (st'.jobs k).stage ≠ .unborn ∧
    (st'.jobs k).entity = (st.jobs k).entity ∧ (st'.jobs k).sched = (st.jobs k).sched ∧
      ((st.jobs k).published → (st'.jobs k).published)
  scheduled : ∀ k, (st.jobs k).scheduled → (st'.jobs k).scheduled
  finished : ∀ k, (st.jobs k).finished → (st'.jobs k).finished
  others : ∀ i, st.others i → st'.others i

theorem Grows.signaled (h : Grows st st') {f : Fence} (hf : st.signaled f) : st'.signaled f := by
  cases f with
  | scheduled k => exact h.scheduled k hf
  | finished k => exact h.finished k hf
  | other i => exact h.others i hf

theorem Grows.handled (h : Grows st st') (hw : Waiting st) {f : Fence}
    (hj : (st.jobs j).stage ≠ .unborn) (hmem : f ∈ (st.jobs j).deps) (hf : Handled st j f) :
    Handled st' j f := by
  cases hf with
  | inl hsig => exact .inl (h.signaled hsig)
  | inr hk =>
    obtain ⟨k, hk, hor⟩ := hk
    have hpub := (hw.deps j f k hmem hk).1
    obtain ⟨-, hke, hks, -⟩ := h.job k (hw.published k hpub).1
    obtain ⟨-, hje, hjs, -⟩ := h.job j hj
    refine .inr ⟨k, hk, ?_⟩
    rw [hke, hks, hje, hjs]
    exact hor.imp_right (And.imp_right (h.scheduled k))

/-- Steps that neither make a job, nor look for what one waits for. -/
theorem Waiting.frame (hw : Waiting st) (hg : Grows st st')
    (hjob : ∀ j, (st'.jobs j).deps = (st.jobs j).deps ∧ (st'.jobs j).sync = (st.jobs j).sync ∧
      (st'.jobs j).entity = (st.jobs j).entity ∧ (st'.jobs j).sched = (st.jobs j).sched)
    (hpublished : ∀ k, (st'.jobs k).published → (st'.jobs k).stage ≠ .unborn ∧
      (k ∈ st'.pushed (st.jobs k).entity ∨
        (st'.entities (st.jobs k).entity).pusher = .published k))
    (hfree : ∀ s e, (st'.threads s).entity = some e → (st'.entities e).cb = none)
    (hdependency : ∀ e, (st'.entities e).cb ≠ none → (st'.entities e).dependency ≠ none)
    (hknown : ∀ s e j f, st.threads s = .adding e j f → (st'.entities e).dependency ≠ none)
    (hearly : ∀ j, (st'.jobs j).stage = .made ∨ (st'.jobs j).stage = .queued →
      (st.jobs j).stage = .made ∨ (st.jobs j).stage = .queued)
    (hbefore : ∀ j, (st'.jobs j).stage.beforeRun →
      (st.jobs j).stage ≠ .unborn ∧ ∀ f ∈ (st.jobs j).deps, Handled st j f)
    (hphase : ∀ e, Phase.ended (st.entities e).phase → Phase.ended (st'.entities e).phase)
    (hcb : ∀ e, (st'.entities e).cb = (st.entities e).cb ∨ Phase.ended (st'.entities e).phase ∨
      (∀ j, (st.jobs j).entity = e → (st.jobs j).stage = .unborn) ∨
        ∀ f w, (st.entities e).cb = some (f, w) → st'.signaled f)
    (hadding : ∀ s e j f, st'.threads s = .adding e j f ↔ st.threads s = .adding e j f)
    (hempty : ∀ s e j, st'.threads s = .taking e j ∨ st'.threads s = .grab e j →
      st.threads s = .taking e j ∨ st.threads s = .grab e j) : Waiting st' := by
  have hdeps := fun j => (hjob j).1
  have hsync := fun j => (hjob j).2.1
  have hentity := fun j => (hjob j).2.2.1
  have hsched := fun j => (hjob j).2.2.2
  constructor <;> try simp only [hdeps, hsync, hentity, hadding]
  case deps =>
    intro j f k hf hk
    obtain ⟨hpub, hlt⟩ := hw.deps j f k hf hk
    exact ⟨(hg.job k (hw.published k hpub).1).2.2.2 hpub, hlt⟩
  case sync => exact hw.sync
  case published => exact hpublished
  case free => exact hfree
  case depends => exact hdependency
  case adding => exact hw.adding
  case known => exact hknown
  case empty => exact fun s e j h => hw.empty s e j (hempty s e j h)
  case waits =>
    intro j hj hended f hf
    have hearly' := hearly j hj
    have hborn : (st.jobs j).stage ≠ .unborn := by
      cases hearly' with
      | inl h | inr h => simp [h]
    have hended' : Phase.ended (st.entities (st.jobs j).entity).phase = false := by
      by_contra hne
      rw [hphase _ (by simpa using hne)] at hended
      cases hended
    obtain h | h | h | h := hw.waits j hearly' hended' f hf
    · exact .inl h
    · exact .inr (.inl (hg.handled hw hborn hf h))
    · obtain ⟨s, e, hs⟩ := h
      exact .inr (.inr (.inl ⟨s, e, (hadding s e j f).mpr hs⟩))
    · obtain hsame | hend | habsent | hsignaled := hcb (st.jobs j).entity
      · refine .inr (.inr (.inr ?_))
        unfold Blocks at h ⊢
        simp only [hentity, hsched, hsame]
        exact h
      · rw [hended] at hend
        cases hend
      · cases hborn (habsent j rfl)
      · refine .inr (.inl ?_)
        obtain h | ⟨k, hk, hs, h⟩ := h
        · exact .inl (hsignaled f true h)
        · have hsig : (st'.jobs k).scheduled := hsignaled _ false h
          exact .inr ⟨k, hk, .inr ⟨by rw [hsched, hsched, hs], hsig⟩⟩
  case handled =>
    intro j hj f hf
    obtain ⟨hborn, hhandled⟩ := hbefore j hj
    exact hg.handled hw hborn hf (hhandled f hf)

attribute [local grind =] Function.update_apply
attribute [local grind] Thread.entity Phase.ended Stage.beforeRun

theorem unborn_of_beforeRun {a : Stage} (h : a.beforeRun) : a ≠ .unborn := by
  cases a <;> simp [Stage.beforeRun] at h ⊢

theorem Waiting.setThread (hw : Waiting st) {t : Thread}
    (hentity : t.entity = none ∨ t.entity = (st.threads s).entity)
    (hadding : ∀ e j f, t = .adding e j f ↔ st.threads s = .adding e j f)
    (hempty : ∀ e j, t = .taking e j ∨ t = .grab e j →
      st.threads s = .taking e j ∨ st.threads s = .grab e j) : Waiting (st.setThread s t) := by
  have ⟨_, _, hpublished, hfree, hdependency, _, hknown, _, _, hhandled⟩ := hw
  apply hw.frame
  case hg => constructor <;> simp [State.setThread]
  all_goals
    simp only [State.setThread]
    grind -linarith

theorem Waiting.woken (hw : Waiting st) (s : ℕ) : Waiting (st.setThread s (st.threads s).woken) := by
  apply hw.setThread
  case hentity => exact .inr (entity_woken _)
  all_goals cases st.threads s <;> simp [Thread.woken]

theorem Waiting.wakeup (hw : Waiting st) (s : ℕ) : Waiting (st.wakeup s) := by
  unfold State.wakeup
  split
  · exact hw.woken s
  · exact hw

theorem Waiting.setEntity (hw : Waiting st) {f : Entity → Entity}
    (hpusher : ∀ k, (st.entities e).pusher = .published k →
      (f (st.entities e)).pusher = .published k)
    (hcb : (f (st.entities e)).cb = (st.entities e).cb)
    (hdep : (f (st.entities e)).dependency = (st.entities e).dependency)
    (hphase : Phase.ended (st.entities e).phase → Phase.ended (f (st.entities e)).phase) :
    Waiting (st.setEntity e f) := by
  have ⟨_, _, hpublished, hfree, hdependency, _, hknown, _, _, hhandled⟩ := hw
  apply hw.frame
  case hg => constructor <;> simp [State.setEntity]
  all_goals
    simp only [State.setEntity]
    grind -linarith

/-- A callback is called, or taken off at the end of its entity. -/
theorem Waiting.clear (hw : Waiting st) {f : Entity → Entity}
    (hat : ∀ s, (st.threads s).entity ≠ some e)
    (hf : (f (st.entities e)).pusher = (st.entities e).pusher ∧ (f (st.entities e)).cb = none)
    (hphase : Phase.ended (st.entities e).phase → Phase.ended (f (st.entities e)).phase)
    (hcb : Phase.ended (f (st.entities e)).phase ∨
      ∀ f w, (st.entities e).cb = some (f, w) → st.signaled f) : Waiting (st.setEntity e f) := by
  have ⟨_, _, hpublished, hfree, hdependency, _, hknown, _, _, hhandled⟩ := hw
  have hsignaled : ∀ g, (st.setEntity e f).signaled g = st.signaled g := fun g => by cases g <;> rfl
  apply hw.frame
  case hg => constructor <;> simp [State.setEntity]
  all_goals
    try simp only [hsignaled]
    simp only [State.setEntity]
    grind -linarith

theorem Waiting.create (hw : Waiting st) (hl : Linked st) (rq : Rq) (rqList : List Rq)
    (guilty : Option Bool)
    (hg : (st.entities e).phase = .absent) : Waiting (st.create e rq rqList guilty) := by
  have ⟨_, _, hpublished, hfree, hdependency, _, hknown, _, _, hhandled⟩ := hw
  have hidle := hl.ended e (by simp [hg])
  have howner := hl.owner
  have hat := hl.at_entity
  unfold State.create
  apply hw.frame
  case hg => constructor <;> simp [State.setEntity]
  all_goals
    simp only [State.setEntity]
    grind -linarith

theorem Waiting.setJob (hw : Waiting st) {f : Job → Job}
    (hf : ∀ x, (f x).deps = x.deps ∧ (f x).sync = x.sync ∧ (f x).entity = x.entity ∧
      (f x).sched = x.sched)
    (hpub : (f (st.jobs j)).published = (st.jobs j).published)
    (hstage : (st.jobs j).stage ≠ .unborn → (f (st.jobs j)).stage ≠ .unborn)
    (hearly : (f (st.jobs j)).stage = .made ∨ (f (st.jobs j)).stage = .queued →
      (st.jobs j).stage = .made ∨ (st.jobs j).stage = .queued)
    (hbefore : (f (st.jobs j)).stage.beforeRun → (st.jobs j).stage.beforeRun)
    (hscheduled : (st.jobs j).scheduled → (f (st.jobs j)).scheduled)
    (hfinished : (st.jobs j).finished → (f (st.jobs j)).finished) : Waiting (st.setJob j f) := by
  have ⟨_, _, hpublished, hfree, hdependency, _, hknown, _, _, hhandled⟩ := hw
  apply hw.frame
  case hg =>
    simp only [State.setJob]
    constructor <;> grind -linarith
  all_goals
    simp only [State.setJob]
    grind -linarith [unborn_of_beforeRun]

theorem Waiting.publish (hw : Waiting st) (hl : Linked st)
    (hg : (st.entities e).pusher = .made j) : Waiting (st.publish e j) := by
  have ⟨_, _, hpublished, hfree, hdependency, _, hknown, _, _, hhandled⟩ := hw
  have hmade := hl.made e j (by rw [hg]; rfl)
  apply hw.frame
  case hg =>
    simp only [State.publish, State.setEntity, State.setJob]
    constructor <;> grind -linarith
  all_goals
    simp only [State.publish, State.setEntity, State.setJob]
    grind -linarith [unborn_of_beforeRun]

theorem Waiting.fenceScheduled (hw : Waiting st) (j : ℕ) : Waiting (st.fenceScheduled j) := by
  have ⟨_, _, hpublished, hfree, hdependency, _, hknown, _, _, hhandled⟩ := hw
  have hsignaled : (st.fenceScheduled j).signaled (.scheduled j) := by
    simp [State.fenceScheduled, State.setJob, signaled]
  apply hw.frame
  case hg =>
    simp only [State.fenceScheduled, State.setJob]
    constructor <;> grind -linarith
  case hcb =>
    intro e
    by_cases hcb : (st.entities e).cb = some (.scheduled j, false)
    · refine .inr (.inr (.inr fun f w h => ?_))
      rw [hcb] at h
      cases h
      exact hsignaled
    · refine .inl ?_
      simp only [State.fenceScheduled, hcb, if_false]
  all_goals
    simp only [State.fenceScheduled, State.setJob]
    grind -linarith [unborn_of_beforeRun]

/-- Steps that do not touch what is waited for. -/
theorem Waiting.of_eq (hw : Waiting st) (hj : st'.jobs = st.jobs) (he : st'.entities = st.entities)
    (ht : st'.threads = st.threads) (ho : ∀ i, st.others i → st'.others i)
    (hp : st'.pushed = st.pushed) : Waiting st' := by
  have ⟨_, _, hpublished, hfree, hdependency, _, hknown, _, _, hhandled⟩ := hw
  apply hw.frame
  case hg =>
    constructor
    case others => exact ho
    all_goals simp [hj]
  all_goals
    try simp only [hj, he, ht, hp]
    grind -linarith [unborn_of_beforeRun]

theorem Waiting.rqAddEntity (hw : Waiting st) (rq : Rq) (e : ℕ) : Waiting (st.rqAddEntity rq e) := by
  unfold State.rqAddEntity
  split
  · exact hw
  · have h : Waiting (st.setEntity e fun x => { x with listed := true }) :=
      hw.setEntity (fun _ => id) rfl rfl id
    exact h.of_eq rfl rfl rfl (fun _ => id) rfl

theorem Waiting.rqRemoveEntity (hw : Waiting st) (rq : Rq) (e : ℕ) :
    Waiting (st.rqRemoveEntity rq e) := by
  unfold State.rqRemoveEntity
  split
  · exact hw
  · have h : Waiting (st.setEntity e fun x => { x with listed := false }) :=
      hw.setEntity (fun _ => id) rfl rfl id
    exact h.of_eq rfl rfl rfl (fun _ => id) rfl

theorem Waiting.selectRq (hw : Waiting st) (e : ℕ) : Waiting (st.selectRq e) := by
  obtain hsame | ⟨-, -, rq, -, heq⟩ := st.selectRq_cases e
  · rw [hsame]
    exact hw
  · rw [heq]
    exact (hw.rqRemoveEntity _ e).setEntity (fun _ => id) rfl rfl id

/-- The job that a thread is about to take is queued. -/
theorem Linked.front_queued (hl : Linked st) (hp : st.pipeline.Placed)
    (h : (st.threads s).front = some (e, j)) :
    (st.jobs j).stage = .queued ∧ (st.jobs j).entity = e := by
  obtain ⟨rest, hq⟩ := hl.front h
  exact (hp.queued e j).mp (by simp [pipeline, hq])

/-- One thread at a time is about to take a job. -/
theorem Linked.alone (hl : Linked st) (hp : st.pipeline.Placed)
    (h : (st.threads s).front = some (e, j)) {s' e' : ℕ}
    (h' : (st.threads s').front = some (e', j)) : s' = s := by
  have howner := (hl.front_queued hp h).2
  have howner' := (hl.front_queued hp h').2
  have hrq := (hl.at_entity s e (entity_of_front h)).1
  have hrq' := (hl.at_entity s' e' (entity_of_front h')).1
  rw [← howner', howner] at hrq'
  exact hrq'.symm.trans hrq

theorem Waiting.makeJob (hw : Waiting st) (hl : Linked st) (hp : st.pipeline.Placed)
    (hf : Flagged st) {deps : List Fence} (vm : Bool) (hdeps : deps.all (st.mayWait e st.next))
    (hpusher : (st.entities e).pusher = .idle) : Waiting (st.makeJob e deps vm) := by
  have hunborn := (hp.fresh st.next).mp le_rfl
  have hscheduled := (hf st.next).scheduled
  have hfinished := (hf st.next).finished
  simp only [pipeline] at hunborn
  rw [hunborn] at hscheduled hfinished
  have hadding : ∀ s e j f, st.threads s = .adding e j f → (st.jobs j).stage = .queued := by
    intro s e j f h
    exact (hl.front_queued (s := s) (e := e) hp (by rw [h]; rfl)).1
  have hempty : ∀ s e j, st.threads s = .taking e j ∨ st.threads s = .grab e j →
      (st.jobs j).stage = .queued := by
    intro s e j h
    exact (hl.front_queued (s := s) (e := e) hp (by cases h with | inl h | inr h => rw [h]; rfl)).1
  have hg : Grows st (st.makeJob e deps vm) := by
    simp only [State.makeJob, State.setEntity]
    constructor <;> grind -linarith [Stage.isScheduled, Stage.isFinished]
  have hhandled : ∀ j f, (st.jobs j).stage ≠ .unborn → f ∈ (st.jobs j).deps → Handled st j f →
      Handled (st.makeJob e deps vm) j f := fun j f => hg.handled hw
  simp only [List.all_eq_true, mayWait] at hdeps
  obtain ⟨hdeps', sync, published, free, depends, adding, known, empty, waits, handled⟩ := hw
  constructor
  case waits =>
    intro j hj hended f hf
    by_cases hnew : j = st.next
    · subst hnew
      simp only [State.makeJob, Function.update_self] at hf ⊢
      exact .inl hf
    · have hsame : (st.makeJob e deps vm).jobs j = st.jobs j := Function.update_of_ne hnew ..
      rw [hsame] at hj hf hended ⊢
      have hborn : (st.jobs j).stage ≠ .unborn := by grind -linarith
      have hended' : Phase.ended (st.entities (st.jobs j).entity).phase = false := by
        simp only [State.makeJob, State.setEntity] at hended
        grind -linarith
      obtain h | h | h := waits j hj hended' f hf
      · exact .inl h
      · exact .inr (.inl (hhandled j f hborn hf h))
      · refine .inr (.inr ?_)
        simp only [Pending, Blocks, hsame] at h ⊢
        simp only [State.makeJob, State.setEntity]
        grind -linarith
  case handled =>
    intro j hj f hf
    by_cases hnew : j = st.next
    · subst hnew
      simp [State.makeJob, Stage.beforeRun] at hj
    · have hsame : (st.makeJob e deps vm).jobs j = st.jobs j := Function.update_of_ne hnew ..
      rw [hsame] at hj hf
      exact hhandled j f (unborn_of_beforeRun hj) hf (handled j hj f hf)
  all_goals
    simp only [State.makeJob, State.setEntity]
    grind -linarith

theorem Waiting.pushJob (hw : Waiting st) (hl : Linked st)
    (hg : (st.entities e).pusher = .published j) : Waiting (st.pushJob e j) := by
  have ⟨_, _, hpublished, hfree, hdependency, _, hknown, _, _, hhandled⟩ := hw
  have hmade := hl.made e j (by rw [hg]; rfl)
  apply hw.frame
  case hg =>
    simp only [State.pushJob, State.setEntity, State.setJob]
    constructor <;> grind -linarith
  all_goals
    simp only [State.pushJob, State.setEntity, State.setJob]
    grind -linarith [unborn_of_beforeRun]

/-- What the next job of a thread waits for is in `sync`, or in the thread's hands. -/
theorem Waiting.front (hw : Waiting st) (hl : Linked st) (hp : st.pipeline.Placed)
    (hfront : (st.threads s).front = some (e, j)) {f : Fence} (hf : f ∈ (st.jobs j).deps) :
    f ∈ (st.jobs j).sync ∨ Handled st j f ∨ st.threads s = .adding e j f := by
  obtain ⟨hstage, howner⟩ := hl.front_queued hp hfront
  obtain ⟨hrq, hphase, -⟩ := hl.at_entity s e (entity_of_front hfront)
  obtain h | h | ⟨s', e', h⟩ | h := hw.waits j (.inr hstage) (by grind) f hf
  · exact .inl h
  · exact .inr (.inl h)
  · have hfront' : (st.threads s').front = some (e', j) := by
      rw [h]
      rfl
    rw [hl.alone hp hfront hfront'] at h
    rw [h] at hfront
    cases hfront
    exact .inr (.inr h)
  · have hcb := hw.free s e (entity_of_front hfront)
    unfold Blocks at h
    simp [howner, hcb] at h

/-- A thread has nothing left to wait for when it takes a job. -/
theorem Waiting.take_handled (hw : Waiting st) (hl : Linked st) (hp : st.pipeline.Placed)
    (hg : st.threads s = .taking e j) : ∀ f ∈ (st.jobs j).deps, Handled st j f := by
  intro f hf
  obtain h | h | h := hw.front (s := s) (e := e) hl hp (by rw [hg]; rfl) hf
  · rw [hw.empty s e j (.inl hg)] at h
    cases h
  · exact h
  · rw [hg] at h
    cases h

theorem Waiting.take (hw : Waiting st) (hl : Linked st) (hp : st.pipeline.Placed)
    (hg : st.threads s = .taking e j) : Waiting (st.take s e j) := by
  have hready := hw.take_handled hl hp hg
  have ⟨_, _, hpublished, hfree, hdependency, _, hknown, _, _, hhandled⟩ := hw
  have hstage := (hl.front_queued (e := e) (j := j) hp (by rw [hg]; rfl)).1
  apply hw.frame
  case hg =>
    simp only [State.take, State.setEntity, State.setJob, State.setThread]
    constructor <;> grind -linarith
  all_goals
    simp only [State.take, State.setEntity, State.setJob, State.setThread]
    grind -linarith [unborn_of_beforeRun]

theorem syncGetFence_spec (st : State) (l : List Fence) :
    (∀ f ∈ l, st.signaled f ∨ (st.syncGetFence l).1 = some f ∨ f ∈ (st.syncGetFence l).2) ∧
      ((st.syncGetFence l).1 = none → (st.syncGetFence l).2 = []) ∧
      (∀ f, (st.syncGetFence l).1 = some f → f ∈ l) ∧ ∀ f ∈ (st.syncGetFence l).2, f ∈ l := by
  induction l with
  | nil => simp [syncGetFence]
  | cons f l ih =>
    unfold syncGetFence
    split
    · grind -linarith
    · grind -linarith

theorem setJob_id (st : State) (j : ℕ) : st.setJob j id = st := by simp [setJob]

theorem setEntity_id (st : State) (e : ℕ) : st.setEntity e id = st := by simp [setEntity]

/-- A thread that is about to take a job finds out more about what it waits for. -/
theorem Waiting.restep (hw : Waiting st) (hl : Linked st) (hp : st.pipeline.Placed)
    {f : Job → Job} {g : Entity → Entity} {t : Thread}
    (hfront : (st.threads s).front = some (e, j)) (ht : t.front = some (e, j) ∨ t = .check)
    (hf : ∀ x, (f x).stage = x.stage ∧ (f x).entity = x.entity ∧ (f x).sched = x.sched ∧
      (f x).published = x.published ∧ (f x).scheduled = x.scheduled ∧ (f x).finished = x.finished)
    (hg : ∀ x, (g x).phase = x.phase ∧ (g x).pusher = x.pusher)
    (hdeps : ∀ d ∈ (f (st.jobs j)).deps, d ∈ (st.jobs j).deps ∨ st.mayWait e j d)
    (hsync : ∀ d ∈ (f (st.jobs j)).sync, d ∈ (f (st.jobs j)).deps)
    (hadding : ∀ d, t = .adding e j d → d ∈ (f (st.jobs j)).deps)
    (hknown : ∀ d, t = .adding e j d → (g (st.entities e)).dependency ≠ none)
    (hempty : t = .taking e j ∨ t = .grab e j → (f (st.jobs j)).sync = [])
    (hcb : (g (st.entities e)).cb ≠ none → t = .check ∧ (g (st.entities e)).dependency ≠ none)
    (hwaits : ∀ d ∈ (f (st.jobs j)).deps, d ∈ (f (st.jobs j)).sync ∨ Handled st j d ∨
      t = .adding e j d ∨ (g (st.entities e)).cb = some (d, true) ∨
        ∃ k, d.toDrmSchedFence = some k ∧ (st.jobs k).sched = (st.jobs j).sched ∧
          (g (st.entities e)).cb = some (.scheduled k, false)) :
    Waiting (((st.setJob j f).setEntity e g).setThread s t) := by
  obtain ⟨hstage, howner⟩ := hl.front_queued hp hfront
  have halone := fun s' e' => @Linked.alone _ _ _ _ hl hp hfront s' e'
  have hat := hl.at_entity
  have hrq := (hl.at_entity s e (entity_of_front hfront)).1
  have hentity : t.entity = some e ∨ t = .check := ht.imp_left entity_of_front
  have hjob : ∀ i, ((Function.update st.jobs j (f (st.jobs j)) i).stage = (st.jobs i).stage ∧
      (Function.update st.jobs j (f (st.jobs j)) i).entity = (st.jobs i).entity ∧
      (Function.update st.jobs j (f (st.jobs j)) i).sched = (st.jobs i).sched ∧
      (Function.update st.jobs j (f (st.jobs j)) i).published = (st.jobs i).published ∧
      (Function.update st.jobs j (f (st.jobs j)) i).scheduled = (st.jobs i).scheduled) := by
    grind -linarith
  have hsignaled : ∀ d,
      (((st.setJob j f).setEntity e g).setThread s t).signaled d = st.signaled d := by
    intro d
    cases d <;> simp only [signaled, State.setJob, State.setEntity, State.setThread] <;> grind -linarith
  obtain ⟨deps, sync, published, free, depends, adding, known, empty, waits, handled⟩ := hw
  have hhandled : ∀ i d,
      Handled (((st.setJob j f).setEntity e g).setThread s t) i d ↔ Handled st i d := by
    intro i d
    unfold Handled
    rw [hsignaled]
    simp only [State.setJob, State.setEntity, State.setThread, hjob]
  constructor <;> try simp only [hhandled]
  case waits =>
    simp only [State.setJob, State.setEntity, State.setThread, hjob]
    intro i hi hended d hd
    by_cases hij : i = j
    · subst hij
      rw [Function.update_self] at hd
      obtain h | h | h | h := hwaits d hd
      · refine .inl ?_
        rw [Function.update_self]
        exact h
      · exact .inr (.inl h)
      · exact .inr (.inr (.inl ⟨s, e, by simp [h]⟩))
      · refine .inr (.inr (.inr ?_))
        have howner' := (hf (st.jobs i)).2.1
        have hsched := (hf (st.jobs i)).2.2.1
        simp only [Blocks, hjob, Function.update_self, howner', hsched, howner]
        exact h
    · rw [Function.update_of_ne hij] at hd ⊢
      obtain h | h | ⟨s', e', h⟩ | h := waits i hi (by grind) d hd
      · exact .inl h
      · exact .inr (.inl h)
      · refine .inr (.inr (.inl ⟨s', e', ?_⟩))
        have hne : s' ≠ s := by
          intro heq
          rw [heq] at h
          rw [h] at hfront
          cases hfront
          exact hij rfl
        dsimp only
        rw [Function.update_of_ne hne]
        exact h
      · refine .inr (.inr (.inr ?_))
        simp only [Blocks, hjob] at h ⊢
        have hfree := free s e (entity_of_front hfront)
        have hne : (st.jobs i).entity ≠ e := by
          intro heq
          rw [heq, hfree] at h
          simp at h
        rw [Function.update_of_ne hne]
        exact h
  case handled =>
    simp only [State.setJob, State.setEntity, State.setThread, hjob]
    intro i hi d hd
    by_cases hij : i = j
    · subst hij
      rw [hstage] at hi
      cases hi
    · rw [Function.update_of_ne hij] at hd
      exact handled i hi d hd
  all_goals
    simp only [State.setJob, State.setEntity, State.setThread, hjob]
    grind -linarith [mayWait, Thread.front]

theorem Waiting.vmidGrab (hw : Waiting st) (hl : Linked st) (hp : st.pipeline.Placed)
    {fences : List Fence} (got : Bool) (hg : st.threads s = .grab e j)
    (hf : fences.all (st.mayWait e j)) : Waiting (st.vmidGrab s e j fences got) := by
  have hfront : (st.threads s).front = some (e, j) := by
    rw [hg]
    rfl
  have hwaits := fun f => @Waiting.front _ _ _ _ hw hl hp hfront f
  have hsync := hw.sync j
  have hcb := hw.free s e (entity_of_front hfront)
  have h := hw.restep hl hp (t := .depend e j) hfront (g := id) (f := fun x =>
    { x with sync := x.sync ++ fences, vmid := got, deps := x.deps ++ fences })
  rw [setEntity_id] at h
  apply h
  case ht => exact .inl rfl
  case hf => exact fun _ => ⟨rfl, rfl, rfl, rfl, rfl, rfl⟩
  case hg => exact fun _ => ⟨rfl, rfl⟩
  all_goals grind -linarith

theorem Waiting.dependency (hw : Waiting st) (hl : Linked st) (hp : st.pipeline.Placed)
    (hg : st.threads s = .depend e j) : Waiting (st.dependency s e j) := by
  have hfront : (st.threads s).front = some (e, j) := by
    rw [hg]
    rfl
  have hwaits := fun f => @Waiting.front _ _ _ _ hw hl hp hfront f
  have hsync := hw.sync j
  have hcb := hw.free s e (entity_of_front hfront)
  obtain ⟨hkept, hnil, hfirst, hrest⟩ := syncGetFence_spec st (st.jobs j).sync
  have hhandled : ∀ f, st.signaled f → Handled st j f := fun f => .inl
  unfold State.dependency
  generalize st.syncGetFence (st.jobs j).sync = result at hkept hnil hfirst hrest
  obtain ⟨fence, sync⟩ := result
  cases fence with
  | some f =>
    apply hw.restep hl hp hfront
    case ht => exact .inl rfl
    case hf => exact fun _ => ⟨rfl, rfl, rfl, rfl, rfl, rfl⟩
    case hg => exact fun _ => ⟨rfl, rfl⟩
    all_goals grind -linarith
  | none =>
    dsimp only
    split
    · have h := hw.restep hl hp (t := .grab e j) hfront (g := id) (f := fun x =>
        { x with sync := sync })
      rw [setEntity_id] at h
      apply h
      case ht => exact .inl rfl
      case hf => exact fun _ => ⟨rfl, rfl, rfl, rfl, rfl, rfl⟩
      case hg => exact fun _ => ⟨rfl, rfl⟩
      all_goals grind -linarith
    · apply hw.restep hl hp hfront
      case ht => exact .inl rfl
      case hf => exact fun _ => ⟨rfl, rfl, rfl, rfl, rfl, rfl⟩
      case hg => exact fun _ => ⟨rfl, rfl⟩
      all_goals grind -linarith

/-- A thread that is about to take a job waits for a fence, or asks for the next one. -/
theorem Waiting.adding_step (hw : Waiting st) (hl : Linked st) (hp : st.pipeline.Placed) {d : Fence}
    (hg : st.threads s = .adding e j d) {g : Entity → Entity} {t : Thread}
    (ht : t = .depend e j ∨ t = .check) (hphase : ∀ x, (g x).phase = x.phase ∧ (g x).pusher = x.pusher)
    (hcb : (g (st.entities e)).cb ≠ none → t = .check ∧ (g (st.entities e)).dependency ≠ none)
    (hd : Handled st j d ∨ (g (st.entities e)).cb = some (d, true) ∨
      ∃ k, d.toDrmSchedFence = some k ∧ (st.jobs k).sched = (st.jobs j).sched ∧
        (g (st.entities e)).cb = some (.scheduled k, false)) :
    Waiting ((st.setEntity e g).setThread s t) := by
  have hfront : (st.threads s).front = some (e, j) := by
    rw [hg]
    rfl
  have hwaits := fun f => @Waiting.front _ _ _ _ hw hl hp hfront f
  have hsync := hw.sync j
  have h := hw.restep hl hp (t := t) hfront (g := g) (f := id)
  rw [setJob_id] at h
  apply h
  case ht => cases ht with
    | inl ht | inr ht => simp [ht, Thread.front]
  case hf => exact fun _ => ⟨rfl, rfl, rfl, rfl, rfl, rfl⟩
  case hg => exact hphase
  all_goals grind -linarith

theorem Waiting.waitFor (hw : Waiting st) (hl : Linked st) (hp : st.pipeline.Placed) {d : Fence}
    (hg : st.threads s = .adding e j d) : Waiting (st.waitFor s e j d) := by
  have hcb := hw.free s e (by rw [hg]; rfl)
  have hdep := hw.known s e j d hg
  unfold State.waitFor
  split
  · next hsig =>
    have h := hw.adding_step hl hp hg (g := id) (.inl rfl) (fun _ => ⟨rfl, rfl⟩) (by simp [hcb])
      (.inl (.inl hsig))
    rw [setEntity_id] at h
    exact h
  · exact hw.adding_step hl hp hg (.inr rfl) (fun _ => ⟨rfl, rfl⟩) (fun _ => ⟨rfl, hdep⟩)
      (.inr (.inl rfl))

theorem Waiting.addDependencyCb (hw : Waiting st) (hl : Linked st) (hp : st.pipeline.Placed)
    {d : Fence} (hg : st.threads s = .adding e j d) : Waiting (st.addDependencyCb s e j d) := by
  have hfront : (st.threads s).front = some (e, j) := by
    rw [hg]
    rfl
  obtain ⟨rest, hq⟩ := hl.front hfront
  have howner := (hl.front_queued hp hfront).2
  have hsched := hl.queued e j (by simp [hq])
  have hcb := hw.free s e (entity_of_front hfront)
  unfold State.addDependencyCb
  split
  · exact hw.waitFor hl hp hg
  · next k hk =>
    split
    · next hown =>
      have h := hw.adding_step hl hp hg (g := id) (.inl rfl) (fun _ => ⟨rfl, rfl⟩) (by simp [hcb])
        (.inl (.inr ⟨k, hk, .inl (hown.trans howner.symm)⟩))
      rw [setEntity_id] at h
      exact h
    · split
      · next hsame =>
        have hsame' := hsame.trans hsched.symm
        dsimp only
        split
        · next hscheduled =>
          exact hw.adding_step hl hp hg (.inl rfl) (fun _ => ⟨rfl, rfl⟩) (by simp [hcb])
            (.inl (.inr ⟨k, hk, .inr ⟨hsame', hscheduled⟩⟩))
        · have h := hw.adding_step hl hp hg
            (g := fun x => { x with dependency := some (.scheduled k), cb := some (.scheduled k, false) })
            (.inr rfl) (fun _ => ⟨rfl, rfl⟩) (fun _ => ⟨rfl, by simp⟩) (.inr (.inr ⟨k, hk, hsame', rfl⟩))
          simp only [State.setEntity, Function.update_self, Function.update_idem] at h ⊢
          exact h
      · exact hw.waitFor hl hp hg

/-- A thread that is not about to take a job goes on, to look for one or not. -/
theorem Waiting.idle (hw : Waiting st) {t : Thread} (hold : (st.threads s).front = none)
    (ht : t.entity = none) : Waiting (st.setThread s t) := by
  have hfront : t.front = none := by
    cases t <;> first | rfl | cases ht
  apply hw.setThread (.inl ht)
  all_goals grind -linarith [Thread.front]

theorem Waiting.scan (hw : Waiting st) {p : ℕ} {woken : Bool}
    (hg : st.threads s = .scan p woken) : Waiting (st.scan s p woken) := by
  unfold State.scan RunQueue.selectEntity
  cases hpick : (st.rqs ⟨s, p⟩).pick st.isReady with
  | none =>
    have hidle : ∀ t : Thread, t.entity = none → Waiting (st.setThread s t) := by
      intro t ht
      apply hw.setThread (.inl ht)
      all_goals grind -linarith
    dsimp only
    split <;> apply hidle
    · split <;> rfl
    · rfl
  | some e =>
    have hready := (st.rqs ⟨s, p⟩).pick_ready hpick
    simp only [isReady, Bool.and_eq_true, Option.isNone_iff_eq_none] at hready
    have hpublished := hw.published
    have hfree := hw.free
    have hdepends := hw.depends
    have hknown := hw.known
    have hhandled := hw.handled
    apply hw.frame
    case hg => constructor <;> simp [State.setThread]
    case hfree =>
      intro i e' he
      simp only [State.setThread] at he
      by_cases hi : i = s
      · subst hi
        rw [Function.update_self] at he
        cases he
        by_contra hcb
        exact hdepends e hcb hready.2
      · rw [Function.update_of_ne hi] at he
        exact hfree i e' he
    all_goals
      simp only [State.setThread]
      grind -linarith [unborn_of_beforeRun]

/-- What happens to the jobs and the counts once a job is taken. -/
theorem Waiting.processJob (hw : Waiting st) (j : ℕ) : Waiting (st.processJob j) := by
  have h : Waiting (st.setJob j fun x =>
      { x with finished := true, attached := false, stage := .finished }) := by
    apply hw.setJob
    case hf => exact fun _ => ⟨rfl, rfl, rfl, rfl⟩
    all_goals simp [Stage.beforeRun]
  have h' : Waiting { st.setJob j fun x =>
      { x with finished := true, attached := false, stage := .finished } with
      hwRqCount := Function.update st.hwRqCount (st.jobs j).sched (st.hwRqCount (st.jobs j).sched - 1)
      numJobs := Function.update st.numJobs (st.jobs j).sched (st.numJobs (st.jobs j).sched - 1) } :=
    h.of_eq rfl rfl rfl (fun _ => id) rfl
  exact h'.woken _

theorem Waiting.killJobsCb (hw : Waiting st) (j : ℕ) : Waiting (st.killJobsCb j) := by
  apply hw.setJob
  case hf => exact fun _ => ⟨rfl, rfl, rfl, rfl⟩
  all_goals simp [Stage.beforeRun]

theorem Waiting.killJob (hw : Waiting st) (e j : ℕ) : Waiting (st.killJob e j) := by
  have hqueue := hw.setEntity (e := e) (f := fun x => { x with queue := x.queue.tail })
    (fun _ => id) rfl rfl id
  have hkilled : Waiting { st.setEntity e fun x => { x with queue := x.queue.tail } with
      killed := Function.update st.killed e (st.killed e ++ [j]) } :=
    hqueue.of_eq rfl rfl rfl (fun _ => id) rfl
  have herror := (hkilled.fenceScheduled j).setJob (j := j)
    (f := fun x => { x with error := some (.other 3) }) (fun _ => ⟨rfl, rfl, rfl, rfl⟩) rfl id id id id id
  unfold State.killJob
  dsimp only
  split
  · exact herror.killJobsCb j
  · split
    · exact herror.killJobsCb j
    · apply herror.setJob
      case hf => exact fun _ => ⟨rfl, rfl, rfl, rfl⟩
      all_goals simp [Stage.beforeRun]

theorem jobs_selectRq (st : State) (e : ℕ) : (st.selectRq e).jobs = st.jobs := by
  obtain hsame | ⟨-, -, rq, -, heq⟩ := st.selectRq_cases e
  · rw [hsame]
  · rw [heq, rqRemoveEntity_eq]
    rfl

theorem mayWait_congr (h : st'.jobs = st.jobs) : st'.mayWait = st.mayWait := by
  funext e j f
  unfold mayWait
  rw [h]

theorem front_of_held {t : Thread} (h : t.held ≠ none) : t.front = none := by
  cases t <;> first | rfl | exact absurd rfl h

/-- A thread goes on with the job it holds. -/
theorem Waiting.advance (hw : Waiting st) (hl : Linked st) {a b : Stage} {t : Thread}
    {f : Job → Job} (hold : (st.threads s).held = some (j, a)) (ht : t.entity = none)
    (hb : b.beforeRun → a.beforeRun) (hborn : b ≠ .unborn ∧ b ≠ .made ∧ b ≠ .queued)
    (hf : ∀ x, (f x).stage = b ∧ (f x).deps = x.deps ∧ (f x).sync = x.sync ∧
      (f x).entity = x.entity ∧ (f x).sched = x.sched ∧ (f x).published = x.published ∧
      (f x).scheduled = x.scheduled ∧ (f x).finished = x.finished) :
    Waiting ((st.setJob j f).setThread s t) := by
  have hstage := (hl.held s j a hold).1
  have h : Waiting (st.setJob j f) := by
    apply hw.setJob <;> grind -linarith
  apply h.idle _ ht
  exact front_of_held (by simp [State.setJob, hold])

theorem Waiting.reset (hw : Waiting st) (hg : st.mayPark s) : Waiting (st.reset s) := by
  have ⟨_, _, hpublished, hfree, hdependency, _, hknown, _, _, hhandled⟩ := hw
  have hthread : st.threads s = .check ∨ st.threads s = .asleep := by
    unfold mayPark at hg
    split at hg <;> simp_all
  apply hw.frame
  case hg =>
    simp only [State.reset, State.setThread]
    constructor <;> grind -linarith
  all_goals
    simp only [State.reset, State.setThread]
    grind -linarith [unborn_of_beforeRun]

theorem Moves.waiting (hs : Sound st) (hw : Waiting st) {ev : Event} (h : Moves st ev st') :
    Waiting st' := by
  obtain ⟨hp, -, -, -, hf, hl, -⟩ := id hs
  cases h with
  | @create e rq rqList guilty hg hr => exact hw.create hl rq rqList guilty hg
  | @jobInit e deps vm hphase hpusher hdeps =>
    have hquiet := quiet_selectRq st e
    apply (hw.selectRq e).makeJob (hl.selectRq hf ⟨hphase, hpusher⟩) (hquiet.pipeline ▸ hp)
      (hquiet.flagged hf)
    · rw [hquiet.next, mayWait_congr (jobs_selectRq st e)]
      exact hdeps
    · exact (selectRq_entity st e).2.trans hpusher
  | @initFails e hphase hpusher => exact hw.selectRq e
  | @publish e j hg => exact hw.publish hl hg
  | @abandon e j hg => exact hw.setEntity (by simp [hg]) rfl rfl id
  | push hg => exact hw.pushJob hl hg
  | @enlist e hg =>
    unfold State.enlist
    split
    · exact hw.setEntity (by simp [hg]) rfl rfl id
    · have hpusher : ((st.rqAddEntity (st.entities e).rq e).entities e).pusher = .queued := by
        simp [rqAddEntity_eq, hg]
      exact (hw.rqAddEntity _ e).setEntity (by simp [hpusher]) rfl rfl id
  | @pushWakeup e hg =>
    have hpusher : ((st.wakeup (st.entities e).rq.sched).entities e).pusher = .listed := by
      rw [wakeup_eq]
      exact hg
    exact (hw.wakeup _).setEntity (by simp [hpusher]) rfl rfl id
  | @setPriority e priority hphase hpriority =>
    apply Waiting.rqAddEntity
    apply Waiting.setEntity _ (fun _ => id) rfl rfl id
    apply Waiting.rqRemoveEntity
    exact hw.setEntity (fun _ => id) rfl rfl id
  | @stop e hphase => exact (hw.setEntity (fun _ => id) rfl rfl id).rqRemoveEntity _ e
  | @finiRemove e hphase hpusher =>
    apply (hw.rqRemoveEntity _ e).setEntity (fun _ => id) rfl rfl
    simp [rqRemoveEntity_eq, hphase, Phase.ended]
  | @finiPark e hphase hq =>
    unfold State.finiPark
    split
    · exact hw.setEntity (fun _ => id) rfl rfl fun _ => rfl
    · next hne =>
      have hpark : st.mayPark (st.entities e).rq.sched := by
        apply hq.resolve_left
        intro heq
        simp [heq] at hne
      have hcheck : Waiting (st.setThread (st.entities e).rq.sched .check) := by
        apply hw.idle _ rfl
        unfold mayPark at hpark
        split at hpark <;> simp_all [Thread.front]
      apply hcheck.setEntity (fun _ => id) rfl rfl
      simp [State.setThread, hphase, Phase.ended]
  | @finiDependency e hphase =>
    apply hw.clear (hl.not_at (.inl hphase))
    · refine ⟨rfl, ?_⟩
      have hdep := hw.depends e
      dsimp only
      split
      · rfl
      · next hnone =>
        by_contra hcb
        exact hdep hcb (by simpa using hnone)
    · exact fun _ => rfl
    · exact .inl rfl
  | @kill e j rest hq hphase => exact hw.killJob e j
  | finiDone hphase hq => exact hw.setEntity (fun _ => id) rfl rfl fun _ => rfl
  | @room s hg hr => exact hw.idle (by rw [hg]; rfl) rfl
  | @full s hg hr => exact hw.idle (by rw [hg]; rfl) rfl
  | scan hg => exact hw.scan hg
  | @empty s e hg hq => exact hw.idle (by rw [hg]; rfl) rfl
  | @selected s e j rest hg hq =>
    apply hw.setThread (.inr (by rw [hg]; rfl))
    all_goals grind -linarith
  | dependency hg => exact hw.dependency hl hp hg
  | addDependencyCb hg => exact hw.addDependencyCb hl hp hg
  | @take s e j hg => exact hw.take hl hp hg
  | @count s j hg =>
    have h : Waiting ((st.setJob j fun x => { x with stage := .counted }).setThread s (.counted j)) :=
      hw.advance hl (a := .popped) (b := .counted) (by rw [hg]; rfl) rfl (fun _ => rfl) (by simp)
        fun _ => by simp
    exact h.of_eq rfl rfl rfl (fun _ => id) rfl
  | @jobBegin s j hg =>
    have h : Waiting ((st.setJob j fun x => { x with stage := .begun }).setThread s (.begun j)) :=
      hw.advance hl (a := .counted) (b := .begun) (by rw [hg]; rfl) rfl (fun _ => rfl) (by simp)
        fun _ => by simp
    exact h.of_eq rfl rfl rfl (fun _ => id) rfl
  | @post s j hg =>
    have hold : ((st.fenceScheduled j).threads s).held = some (j, .ran) := by
      simp only [State.fenceScheduled, State.setJob, hg]
      rfl
    exact (hw.fenceScheduled j).advance (hl.fenceScheduled j) (b := .posted) hold rfl
      (fun h => by cases h) (by simp) fun _ => by simp
  | @attach s j hg =>
    unfold State.attach
    split
    · exact hw.advance hl (a := .posted) (b := .attached) (by rw [hg]; rfl) rfl
        (fun h => by cases h) (by simp) fun _ => by simp
    · have hold : ((st.processJob j).threads s).front = none := by
        obtain h | h := aside_processJob st j s
        · rw [h, hg]
          rfl
        · rw [h, front_woken, hg]
          rfl
      exact (hw.processJob j).idle hold rfl
  | @vmidGrab s e j fences got hg hfences => exact hw.vmidGrab hl hp got hg hfences
  | @runJob s j lost fence hg =>
    have h := hw.advance hl (s := s) (j := j) (a := .begun) (b := .ran) (t := .ran j) (f := fun x =>
      { x with
        error := if lost then some .ecanceled else (st.jobs j).error
        hw := if (if lost then some Errno.ecanceled else (st.jobs j).error).isSome then none else fence
        stage := .ran }) (by rw [hg]; rfl) rfl (fun h => by cases h) (by simp) fun _ => by simp
    exact h.of_eq rfl rfl rfl (fun _ => id) rfl
  | @reset s hg => exact hw.reset hg
  | blame => exact hw.setEntity (fun _ => id) rfl rfl id
  | hwSignal hg =>
    apply hw.setJob
    case hf => exact fun _ => ⟨rfl, rfl, rfl, rfl⟩
    all_goals simp
  | @processCb j ha hattached => exact hw.processJob j
  | @depCb e f hg hfence =>
    apply Waiting.wakeup
    apply hw.clear
    · intro s he
      rw [hw.free s e he] at hg
      cases hg
    · exact ⟨rfl, rfl⟩
    · exact id
    · refine .inr fun f' w h => ?_
      rw [hg] at h
      cases h
      exact hfence
  | @finish j hfin hm =>
    have h : Waiting (st.setJob j fun x => { x with freed := x.freed + 1, stage := .freed }) := by
      apply hw.setJob
      case hf => exact fun _ => ⟨rfl, rfl, rfl, rfl⟩
      all_goals simp [Stage.beforeRun]
    exact h.of_eq rfl rfl rfl (fun _ => id) rfl
  | @killCb j k hg hk => exact hw.killJobsCb j
  | @otherSignal i =>
    have hothers : ∀ i', st.others i' → Function.update st.others i true i' := by grind -linarith
    exact hw.of_eq rfl rfl rfl hothers rfl

theorem start_waiting (limit : ℕ → UInt32) : Waiting (start limit) := by
  constructor <;> simp [start, Thread.entity, Stage.beforeRun]

theorem Reached.waiting {limit : ℕ → UInt32} {good : State → Event → Prop}
    (h : Reached limit good st) : Waiting st := by
  induction h with
  | start h => exact h ▸ start_waiting limit
  | next hr hg hstep ih => exact (step_moves hstep).waiting (Reached.sound hr) ih

/-- A job of the same entity that was there before one that is in hand was run. -/
theorem ran_of_older (hs : Sound st) {k : ℕ} (hj : (st.jobs j).stage.beforeRun)
    (hk : k ∈ st.pushed (st.jobs j).entity) (hlt : k < j) : k ∈ st.ran := by
  obtain ⟨l, hl, hpushed⟩ := Pipeline.pushed_split hs.ordered hs.inOrder (st.jobs j).entity
  have hmem : j ∈ l := (hl.2 j).mpr ⟨hj, rfl⟩
  obtain ⟨x, hx⟩ := List.length_eq_one_iff.mp (le_antisymm hl.1 (List.length_pos_of_mem hmem))
  rw [hx, List.mem_singleton] at hmem
  subst hmem
  have hsorted := hs.ordered.sorted (st.jobs j).entity
  rw [hpushed, hx, List.append_assoc, List.append_assoc, List.pairwise_append] at hsorted
  have hk' : k ∈ st.pipeline.pushed (st.jobs j).entity := hk
  rw [hpushed, hx, List.append_assoc, List.append_assoc] at hk'
  cases List.mem_append.mp hk' with
  | inl hran => exact List.mem_of_mem_filter hran
  | inr hrest =>
    cases List.mem_cons.mp hrest with
    | inl heq => exact absurd heq (Nat.ne_of_lt hlt)
    | inr hrest =>
      have hlater := (List.pairwise_cons.mp hsorted.2.1).1 k hrest
      exact absurd hlater (Nat.not_lt.mpr hlt.le)

/-- When a job is given to `run_job`, each fence that was ever in its `sync` has signaled, or is of a
job that went before it: one of the same entity that was run, on the same scheduler or with one
behind it there that has finished, or one of the same scheduler that was run or killed. -/
theorem dependencies_met {limit : ℕ → UInt32} {good : State → Event → Prop}
    (h : Reached limit good st) (hj : st.threads s = .begun j) : ∀ f ∈ (st.jobs j).deps,
    st.signaled f ∨ ∃ k, f.toDrmSchedFence = some k ∧
      ((st.jobs k).entity = (st.jobs j).entity ∧ k ∈ st.ran ∧ ((st.jobs k).sched = s ∨
          ∃ m, k ≤ m ∧ m < j ∧ (st.jobs m).entity = (st.jobs j).entity ∧
            (st.jobs m).sched = (st.jobs k).sched ∧ (st.jobs m).finished) ∨
        (st.jobs k).sched = s ∧ (k ∈ st.ran ∨ k ∈ st.killed (st.jobs k).entity)) := by
  intro f hf
  have hs := Reached.sound h
  have hw := Reached.waiting h
  obtain ⟨hstage, hsched⟩ := hs.linked.held s j .begun (by rw [hj]; rfl)
  have hrun : (st.jobs j).stage.beforeRun := by
    rw [hstage]
    rfl
  obtain hsig | ⟨k, hk, hor⟩ := hw.handled j hrun f hf
  · exact .inl hsig
  · refine .inr ⟨k, hk, ?_⟩
    cases hor with
    | inl howner =>
      obtain ⟨hpub, hlt⟩ := hw.deps j f k hf hk
      have hlt := hlt howner
      have hjpushed : j ∈ st.pushed (st.jobs j).entity := by
        apply (hs.ordered.mem_pushed hs.placed _ j).mpr
        exact ⟨rfl, .inl (by simp [pipeline, hstage, Stage.wasTaken, Stage.beforeRun])⟩
      have hkpushed : k ∈ st.pushed (st.jobs j).entity := by
        cases howner ▸ (hw.published k hpub).2 with
        | inl hmem => exact hmem
        | inr hpusher =>
          have hnewer := (hs.linked.made _ k (by rw [hpusher]; rfl)).2.2.2 j hjpushed
          exact absurd hnewer (Nat.not_lt.mpr hlt.le)
      refine .inl ⟨howner, ran_of_older hs hrun hkpushed hlt, ?_⟩
      by_cases hsame : (st.jobs k).sched = (st.jobs j).sched
      · exact .inl (hsame.trans hsched)
      · obtain ⟨m, hm, hle, hmj, hm', hfin⟩ := turned_when_through h hkpushed hjpushed hlt hsame
        exact .inr ⟨m, hle, hmj, (born_of_pushed hs hm).2, hm', hfin⟩
    | inr hsame =>
      obtain ⟨hks, hscheduled⟩ := hsame
      refine .inr ⟨hks.trans hsched, ?_⟩
      rw [(hs.flagged k).scheduled] at hscheduled
      have hran := hs.ordered.ran k
      have hkilled := hs.ordered.killed (st.jobs k).entity k
      simp only [pipeline] at hran hkilled
      rw [hran, hkilled]
      cases hst : (st.jobs k).stage <;>
        simp [hst, Stage.isScheduled, Stage.hasRun, Stage.wasKilled] at hscheduled ⊢

/-- A job of each of two entities of one scheduler, the second of which waits for the first, once
before it has a VMID and once behind. -/
def dependentRun : List Event :=
  [.create 0 ⟨0, 2⟩ [] none, .create 1 ⟨0, 2⟩ [] none, .jobInit 0 [.other 7] false, .publish 0,
    .jobInit 1 [.finished 0] true, .publish 1, .push 1, .enlist 1, .pushWakeup 1, .push 0, .enlist 0,
    .pushWakeup 0, .otherSignal 7] ++ List.replicate 16 (.thread 0) ++
  [.runJob 0 false (some false)] ++ List.replicate 8 (.thread 0) ++ [.vmidGrab 0 [.finished 0] true] ++
  List.replicate 6 (.thread 0)

theorem dependencies_met_dependent : ∃ st, Reached (fun _ => 2) (fun _ _ => True) st ∧
    st.threads 0 = .begun 1 ∧ (st.jobs 1).deps = [.finished 0, .finished 0] ∧
      (st.signaled (.finished 0) = true ∨ 0 ∈ st.ran ∨ 0 ∈ st.killed 0) := by
  have hrun : (dependentRun.foldlM State.step (start fun _ => 2)).map
      (fun st => (st.threads 0, (st.jobs 1).deps, (st.jobs 0).entity)) =
        some (.begun 1, [.finished 0, .finished 0], 0) := by decide +kernel
  obtain ⟨st, hreach, hst⟩ := reached_of_run (fun _ _ _ => trivial) hrun
  simp only [Prod.mk.injEq] at hst
  obtain ⟨hthread, hdeps, howner⟩ := hst
  refine ⟨st, hreach, hthread, hdeps, ?_⟩
  obtain hsig | ⟨k, hk, hor⟩ := dependencies_met hreach hthread (.finished 0) (by simp [hdeps])
  · exact .inl hsig
  · cases hk
    rw [howner] at hor
    cases hor with
    | inl hown => exact .inr (.inl hown.2.1)
    | inr hsched => exact .inr hsched.2

end Gsgpu.Sched.State
