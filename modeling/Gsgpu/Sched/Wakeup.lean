import Gsgpu.Sched.Dependencies

/-! No wakeup is lost: the thread of a scheduler does not sleep while a job of it could be run. -/
namespace Gsgpu.Sched

/-- It goes on to call `drm_sched_wakeup`. -/
def Pusher.wakes : Pusher → Bool
  | .queued | .listed => true
  | _ => false

/-- It will look at all run queues before it sleeps. -/
def Thread.awake : Thread → Bool
  | .asleep | .scan _ false => false
  | _ => true

/-- On a run queue and ready, with nobody about to wake the thread. -/
def Entity.Stuck (x : Entity) : Prop :=
  x.listed ∧ x.queue ≠ [] ∧ x.dependency = none ∧ x.pusher.wakes = false

/-- Stuck only as it was before. -/
def Entity.Eased (x y : Entity) : Prop := y.Stuck → x.Stuck ∧ x.rq = y.rq

theorem Entity.eased_refl (x : Entity) : x.Eased x := fun h => ⟨h, rfl⟩

theorem Entity.eased_update {f : ℕ → Entity} {e : ℕ} {y : Entity} (h : (f e).Eased y) (i : ℕ) :
    (f i).Eased (Function.update f e y i) := by
  by_cases hi : i = e
  · subst hi
    rwa [Function.update_self]
  · rw [Function.update_of_ne hi]
    exact eased_refl _

namespace State

attribute [local grind =] Function.update_apply RunQueue.mem_addEntity RunQueue.mem_removeEntity
  RunQueue.entities_setCurrent
attribute [local grind] Pusher.wakes Thread.woken isReady

variable {st st' : State} {s e j : ℕ}

/-- What an entity is when it is on a run queue or waits for a fence. -/
structure Apt (st : State) : Prop where
  stopped : ∀ e, (st.entities e).stopped → (st.entities e).listed = false
  priority : ∀ e, (st.entities e).phase ≠ .absent → (st.entities e).rq.priority < priorityMax ∧
    ∀ r ∈ (st.entities e).rqList, r.priority < priorityMax
  blocked : ∀ e, (st.entities e).cb ≠ none → (st.entities e).queue ≠ [] ∧
    (st.entities e).phase ≠ .killing ∧ (st.entities e).phase ≠ .gone
  same : ∀ e k, (st.entities e).cb = some (.scheduled k, false) →
    (st.jobs k).sched = (st.entities e).rq.sched ∧ (st.jobs k).stage ≠ .unborn

/-- The thread of a scheduler has found nothing on the run queues from this priority on, and will
not look again before it sleeps. -/
def passed (st : State) (s : ℕ) : Option ℕ :=
  match st.threads s with
  | .asleep => if st.ready s then some 0 else none
  | .scan p false => some (p + 1)
  | _ => none

/-- Threads miss nothing. -/
def Awake (st : State) : Prop :=
  ∀ s p, st.passed s = some p → ∀ e, (st.entities e).Stuck → (st.entities e).rq.sched = s →
    (st.entities e).rq.priority < p

/-- The steps that do not wake a thread that may be needed: the priority of a ready entity or a
stopped one changes, or a job is killed that an entity of the same scheduler waits for. -/
def wakesAll (st : State) : Event → Prop
  | .setPriority e _ => st.isReady e = false ∧ (st.entities e).stopped = false
  | .kill e =>
    ∀ j ∈ (st.entities e).queue.head?, ∀ i, (st.entities i).cb ≠ some (.scheduled j, false)
  | _ => True

/-- The same of an entity is on a run queue or waits, or less. -/
def Alike (x y : Entity) : Prop :=
  y.stopped = x.stopped ∧ y.listed = x.listed ∧ y.phase = x.phase ∧ y.rq = x.rq ∧
    y.rqList = x.rqList ∧ y.queue = x.queue ∧ (y.cb = x.cb ∨ y.cb = none)

theorem alike_refl (x : Entity) : Alike x x := ⟨rfl, rfl, rfl, rfl, rfl, rfl, .inl rfl⟩

theorem Apt.frame (ha : Apt st) (hs : Sound st) (hk : Kept st st')
    (he : ∀ e, Alike (st.entities e) (st'.entities e)) : Apt st' := by
  have hborn : ∀ k, (st.jobs k).stage ≠ .unborn →
      (st'.jobs k).sched = (st.jobs k).sched ∧ (st'.jobs k).stage ≠ .unborn := by
    intro k hk'
    have hkeeps := hk.follows.keeps hs hk'
    exact ⟨hkeeps.sched, hkeeps.born⟩
  obtain ⟨stopped, priority, blocked, same⟩ := ha
  constructor <;> grind -linarith [Alike]

theorem alike_setEntity {f : Entity → Entity} (hf : ∀ x, Alike x (f x)) (i : ℕ) :
    Alike (st.entities i) ((st.setEntity e f).entities i) := by
  by_cases hi : i = e
  · subst hi
    simpa [setEntity] using hf _
  · simpa [setEntity, hi] using alike_refl _

theorem alike_fenceScheduled (st : State) (j i : ℕ) :
    Alike (st.entities i) ((st.fenceScheduled j).entities i) := by
  simp only [fenceScheduled]
  split
  · exact ⟨rfl, rfl, rfl, rfl, rfl, rfl, .inr rfl⟩
  · exact alike_refl _

theorem Apt.selectRq (ha : Apt st) (hphase : (st.entities e).phase = .live) :
    Apt (st.selectRq e) := by
  obtain hsame | ⟨hq, hfin, rq, hrq, heq⟩ := st.selectRq_cases e
  · rw [hsame]
    exact ha
  · obtain ⟨stopped, priority, blocked, same⟩ := ha
    rw [heq, rqRemoveEntity_eq]
    simp only [setEntity]
    constructor <;> dsimp only
    all_goals grind -linarith

/-- An entity with jobs waits for a fence, or asks for the next. -/
theorem Apt.block (ha : Apt st) {f : Entity → Entity}
    (hat : (st.entities e).queue ≠ [] ∧ ((st.entities e).phase = .live ∨
      (st.entities e).phase = .removed))
    (hf : ∀ x, (f x).stopped = x.stopped ∧ (f x).listed = x.listed ∧ (f x).phase = x.phase ∧
      (f x).rq = x.rq ∧ (f x).rqList = x.rqList ∧ (f x).queue = x.queue)
    (hcb : ∀ k, (f (st.entities e)).cb = some (.scheduled k, false) →
      (st.jobs k).sched = (st.entities e).rq.sched ∧ (st.jobs k).stage ≠ .unborn) :
    Apt (st.setEntity e f) := by
  obtain ⟨stopped, priority, blocked, same⟩ := ha
  simp only [setEntity]
  constructor <;> dsimp only
  all_goals grind -linarith

theorem Apt.setThread (ha : Apt st) (s : ℕ) (t : Thread) : Apt (st.setThread s t) :=
  ⟨ha.stopped, ha.priority, ha.blocked, ha.same⟩

theorem Apt.addDependencyCb (ha : Apt st) (hs : Sound st) (hw : Waiting st) {f : Fence}
    (hg : st.threads s = .adding e j f) : Apt (st.addDependencyCb s e j f) := by
  obtain ⟨hrq, hphase, hqueue⟩ := hs.linked.at_entity s e (by rw [hg]; rfl)
  have hcb := hw.free s e (by rw [hg]; rfl)
  have hwait : Apt (st.waitFor s e j f) := by
    unfold State.waitFor
    split
    · exact ha.setThread s _
    · apply Apt.setThread
      apply ha.block ⟨hqueue, hphase⟩
      · exact fun _ => ⟨rfl, rfl, rfl, rfl, rfl, rfl⟩
      · exact fun k hk => by cases hk
  unfold State.addDependencyCb
  split
  · exact hwait
  · next k hk =>
    have hborn := (hw.published k (hw.deps j f k (hw.adding s e j f hg) hk).1).1
    split
    · exact ha.setThread s _
    · split
      · next hsame =>
        have hdep : Apt (st.setEntity e fun x => { x with dependency := some (.scheduled k) }) := by
          apply ha.block ⟨hqueue, hphase⟩
          · exact fun _ => ⟨rfl, rfl, rfl, rfl, rfl, rfl⟩
          · exact fun i hi => by simp [hcb] at hi
        dsimp only
        split
        · exact hdep.setThread s _
        · apply Apt.setThread
          apply hdep.block
          · simpa [setEntity] using ⟨hqueue, hphase⟩
          · exact fun _ => ⟨rfl, rfl, rfl, rfl, rfl, rfl⟩
          · intro i hi
            cases hi
            simpa [setEntity] using ⟨hsame, hborn⟩
      · exact hwait

theorem entities_killJob (st : State) (e j : ℕ) : (st.killJob e j).entities =
    ((st.setEntity e fun x => { x with queue := x.queue.tail }).fenceScheduled j).entities := by
  unfold State.killJob
  dsimp only
  split
  · rfl
  · split <;> rfl

theorem Moves.apt (hs : Sound st) (hw : Waiting st) (ha : Apt st) {ev : Event}
    (hwakes : st.wakesAll ev) (h : Moves st ev st') : Apt st' := by
  have hl := hs.linked
  have hk := h.kept hs
  have hframe : (∀ e, Alike (st.entities e) (st'.entities e)) → Apt st' := ha.frame hs hk
  have hborn : ∀ k, (st.jobs k).stage ≠ .unborn →
      (st'.jobs k).sched = (st.jobs k).sched ∧ (st'.jobs k).stage ≠ .unborn := by
    intro k hk'
    have hkeeps := hk.follows.keeps hs hk'
    exact ⟨hkeeps.sched, hkeeps.born⟩
  have ⟨stopped, priority, blocked, same⟩ := ha
  cases h with
  | @create e rq rqList guilty hg hr =>
    have habsent := hl.absent e hg
    have hended := hl.ended e (by simp [hg])
    simp only [State.create, State.setEntity]
    constructor <;> dsimp only
    all_goals try grind -linarith
  | @jobInit e deps vm hphase hpusher hdeps =>
    obtain ⟨hphase', hpusher'⟩ := selectRq_entity st e
    have hs' := hs.selectRq hphase hpusher
    have hmake := hs'.makeJob (hphase'.trans hphase) (hpusher'.trans hpusher) deps vm
    apply (ha.selectRq hphase).frame hs' hmake
    intro i
    by_cases hi : i = e
    · subst hi
      simp [State.makeJob, setEntity, Alike]
    · simpa [State.makeJob, setEntity, hi] using alike_refl _
  | @initFails e hphase hpusher => exact ha.selectRq hphase
  | pushWakeup hg =>
    apply hframe
    unfold State.pushWakeup
    rw [wakeup_eq]
    apply alike_setEntity
    exact fun _ => ⟨rfl, rfl, rfl, rfl, rfl, rfl, .inl rfl⟩
  | @depCb e f hg hf =>
    apply hframe
    unfold State.entityWakeup
    rw [wakeup_eq]
    have hclear : ∀ i, Alike (st.entities i)
        ((st.setEntity e fun x => { x with dependency := none, cb := none }).entities i) :=
      alike_setEntity fun _ => ⟨rfl, rfl, rfl, rfl, rfl, rfl, .inr rfl⟩
    exact hclear
  | scan hg =>
    apply hframe
    unfold State.scan
    split
    · exact fun _ => alike_refl _
    · split <;> exact fun _ => alike_refl _
  | @dependency s e j hg =>
    have hdep : ∀ d, ∀ i, Alike (st.entities i)
        ((st.setEntity e fun x => { x with dependency := d }).entities i) := fun d =>
      alike_setEntity fun _ => ⟨rfl, rfl, rfl, rfl, rfl, rfl, .inl rfl⟩
    apply hframe
    unfold State.dependency
    dsimp only
    split
    · exact hdep _
    · split
      · exact fun _ => alike_refl _
      · exact hdep none
  | @addDependencyCb s e j f hg => exact ha.addDependencyCb hs hw hg
  | attach hg =>
    apply hframe
    unfold State.attach
    split <;> exact fun _ => alike_refl _
  | @push e j hg =>
    simp only [State.pushJob, State.setEntity, State.setJob] at hborn ⊢
    constructor <;> dsimp only
    case blocked =>
      intro i hi
      by_cases hie : i = e
      · subst hie
        simp only [Function.update_self] at hi ⊢
        exact ⟨by simp, (blocked i hi).2⟩
      · simp only [Function.update_of_ne hie] at hi ⊢
        exact blocked i hi
    all_goals grind -linarith
  | @take s e j hg =>
    have hcb := hw.free s e (by rw [hg]; rfl)
    simp only [State.take, State.setEntity, State.setJob, State.setThread] at hborn ⊢
    constructor <;> dsimp only
    all_goals grind -linarith
  | @kill e j rest hq hphase =>
    have hent := entities_killJob st e j
    simp only [State.fenceScheduled, State.setJob, State.setEntity] at hent
    constructor <;> simp only [hent]
    all_goals grind -linarith
  | @finiPark e hphase hq =>
    unfold State.finiPark
    split
    · next hempty =>
      have hnil := List.isEmpty_iff.mp hempty
      simp only [setEntity]
      constructor <;> dsimp only
      all_goals grind -linarith
    · simp only [setEntity, setThread]
      constructor <;> dsimp only
      all_goals grind -linarith
  | @enlist e hg =>
    unfold State.enlist
    split
    · simp only [setEntity]
      constructor <;> dsimp only
      all_goals grind -linarith
    · simp only [setEntity, rqAddEntity_eq]
      constructor <;> dsimp only
      all_goals grind -linarith
  | @setPriority e p hphase hp =>
    simp only [setEntity, State.setPriority, rqAddEntity_eq, rqRemoveEntity_eq]
    have hstopped := hwakes.2
    constructor <;> dsimp only
    all_goals grind -linarith
  | @finiDependency e hphase =>
    have hdep : (st.entities e).cb ≠ none → (st.entities e).dependency.isSome := fun h =>
      Option.isSome_iff_ne_none.mpr (hw.depends e h)
    simp only [State.finiDependency, State.setEntity]
    constructor <;> dsimp only
    all_goals grind -linarith
  | stop | finiRemove | finiDone =>
    simp only [setEntity, State.stop, State.finiRemove, State.finiDone, rqRemoveEntity_eq]
    constructor <;> dsimp only
    all_goals grind -linarith
  | publish | abandon | blame =>
    exact hframe (alike_setEntity fun _ => ⟨rfl, rfl, rfl, rfl, rfl, rfl, .inl rfl⟩)
  | post => exact hframe (alike_fenceScheduled st _)
  | _ => exact hframe fun _ => alike_refl _

theorem passed_eq {p : ℕ} (h : st.passed s = some p) :
    st.threads s = .asleep ∧ st.ready s ∧ p = 0 ∨
      ∃ q, st.threads s = .scan q false ∧ p = q + 1 := by
  unfold passed at h
  split at h
  · next ht =>
    split at h
    · next hr =>
      cases h
      exact .inl ⟨ht, hr, rfl⟩
    · cases h
  · next q ht =>
    cases h
    exact .inr ⟨q, ht, rfl⟩
  · cases h

/-- A thread that has missed nothing is not one that was woken. -/
theorem passed_aside {p : ℕ} (ht : Aside st st' s) (hr : st'.ready s → st.ready s)
    (h : st'.passed s = some p) : st.passed s = some p ∧ st'.threads s = st.threads s := by
  have hsame : st'.threads s = st.threads s := by
    cases ht with
    | inl hsame => exact hsame
    | inr hwoken =>
      obtain ⟨hthread, -⟩ | ⟨q, hthread, -⟩ := passed_eq h
      · rw [hwoken] at hthread
        cases hs : st.threads s <;> simp [hs, Thread.woken] at hthread
      · rw [hwoken] at hthread
        cases hs : st.threads s <;> simp [hs, Thread.woken] at hthread
  refine ⟨?_, hsame⟩
  unfold passed
  obtain ⟨hthread, hready, rfl⟩ | ⟨q, hthread, rfl⟩ := passed_eq h
  · rw [← hsame, hthread, if_pos (hr hready)]
  · rw [← hsame, hthread]

/-- A step that leaves no entity of a scheduler stuck whose thread it leaves. -/
theorem Awake.frame (ha : Awake st)
    (h : ∀ s p, st'.passed s = some p → (Aside st st' s ∧ (st'.ready s → st.ready s)) ∧
      ∀ e, (st'.entities e).rq.sched = s → (st.entities e).Eased (st'.entities e)) :
    Awake st' := by
  intro s p hp e hstuck hs
  obtain ⟨⟨haside, hready⟩, hless⟩ := h s p hp
  obtain ⟨hstuck', hrq⟩ := hless e hs hstuck
  rw [← hrq] at hs ⊢
  exact ha s p (passed_aside haside hready hp).1 e hstuck' hs

/-- A step of a thread, or one that wakes it. -/
theorem Awake.moved (ha : Awake st)
    (hpassed : ∀ p, st'.passed s = some p → ∀ e, (st'.entities e).Stuck →
      (st'.entities e).rq.sched = s → (st'.entities e).rq.priority < p)
    (haside : ∀ i, i ≠ s → Aside st st' i) (hready : ∀ i, i ≠ s → st'.ready i = st.ready i)
    (hless : ∀ e, (st'.entities e).rq.sched ≠ s → (st.entities e).Eased (st'.entities e)) :
    Awake st' := by
  intro i p hp e hstuck he
  by_cases hi : i = s
  · subst hi
    exact hpassed p hp e hstuck he
  · obtain ⟨hstuck', hrq⟩ := hless e (he ▸ hi) hstuck
    rw [← hrq] at he ⊢
    have hp' := (passed_aside (haside i hi) (by rw [hready i hi]; exact id) hp).1
    exact ha i p hp' e hstuck' he

/-- A thread that has passed nothing misses nothing. -/
theorem Awake.unpassed (ha : Awake st) (hpassed : st'.passed s = none)
    (haside : ∀ i, i ≠ s → Aside st st' i) (hready : ∀ i, i ≠ s → st'.ready i = st.ready i)
    (hless : ∀ e, (st'.entities e).rq.sched ≠ s → (st.entities e).Eased (st'.entities e)) :
    Awake st' := by
  apply ha.moved _ haside hready hless
  intro p hp
  rw [hpassed] at hp
  cases hp

/-- The entity that changes is one of the scheduler whose thread goes on. -/
theorem Entity.eased_apart {x : ℕ → Entity} {y : Entity} (hx : (x e).rq.sched = s)
    (hy : y.rq = (x e).rq) (i : ℕ) (hi : (Function.update x e y i).rq.sched ≠ s) :
    (x i).Eased (Function.update x e y i) := by
  by_cases hie : i = e
  · subst hie
    rw [Function.update_self, hy] at hi
    exact absurd hx hi
  · rw [Function.update_of_ne hie]
    exact Entity.eased_refl _

/-- A thread that goes on after it has looked. -/
theorem passed_of_awake (h : (st.threads s).awake) : st.passed s = none := by
  unfold passed
  cases ht : st.threads s with
  | scan p woken =>
    cases woken with
    | true => rfl
    | false => simp [ht, Thread.awake] at h
  | asleep => simp [ht, Thread.awake] at h
  | _ => rfl

theorem passed_woken (st : State) (h : st'.threads s = (st.threads s).woken) :
    st'.passed s = none := by
  unfold passed
  rw [h]
  cases st.threads s <;> rfl

/-- A step that no thread takes part in. -/
theorem Awake.still (ha : Awake st) (haside : ∀ i, Aside st st' i)
    (hready : ∀ i, st'.ready i = st.ready i)
    (hless : ∀ e, (st.entities e).Eased (st'.entities e)) : Awake st' := by
  apply ha.frame
  intro s p hp
  exact ⟨⟨haside s, by rw [hready s]; exact id⟩, fun e _ => hless e⟩

/-- A thread for which there is no room neither sleeps for want of a job nor looks for one. -/
theorem passed_full (hs : Sound st) (hr : st.ready s = false) : st.passed s = none := by
  cases hp : st.passed s with
  | none => rfl
  | some p =>
    have hroom : st.ready s := by
      obtain ⟨-, hready, -⟩ | ⟨q, hscan, -⟩ := passed_eq hp
      · exact hready
      · have hlt := hs.ready (s := s) (by rw [hscan]; rfl)
        unfold State.ready
        simpa using hlt
    rw [hr] at hroom
    cases hroom

theorem Awake.wakeup (ha : Awake st) (hs : Sound st) {f : Entity → Entity}
    (hf : ∀ x, (f x).rq = x.rq) : Awake ((st.setEntity e f).wakeup (st.entities e).rq.sched) := by
  rw [wakeup_eq]
  apply ha.unpassed (s := (st.entities e).rq.sched)
  case haside => exact fun i hi => aside_setThread hi
  case hready => exact fun i _ => rfl
  case hless => exact Entity.eased_apart rfl (hf _)
  case hpassed =>
    have hready : (st.setEntity e f).ready (st.entities e).rq.sched =
        st.ready (st.entities e).rq.sched := rfl
    rw [hready]
    cases hr : st.ready (st.entities e).rq.sched with
    | true =>
      apply passed_woken st
      rw [if_pos rfl, setThread_self]
      rfl
    | false =>
      rw [if_neg Bool.false_ne_true, ← passed_full hs hr]
      unfold passed
      rw [setThread_self]
      rfl

theorem Awake.selectRq (ha : Awake st) : Awake (st.selectRq e) := by
  have hthreads := threads_selectRq st e
  obtain hsame | ⟨hq, hfin, rq, hrq, heq⟩ := st.selectRq_cases e
  · rw [hsame]
    exact ha
  · apply ha.still fun i => .inl (congrFun hthreads i)
    all_goals
      rw [heq, rqRemoveEntity_eq]
      simp only [setEntity, Function.update_idem, Function.update_self]
    · exact fun _ => rfl
    · apply Entity.eased_update
      simp [Entity.Eased, Entity.Stuck]

/-- No entity of a run queue is stuck that nothing is picked from. -/
theorem Awake.scan_none (ha : Awake st) (hl : Linked st) {p : ℕ}
    (hg : st.threads s = .scan p false) (hpick : (st.rqs ⟨s, p⟩).pick st.isReady = none)
    (hstuck : (st.entities e).Stuck) (hs : (st.entities e).rq.sched = s) :
    (st.entities e).rq.priority < p := by
  have hpassed : st.passed s = some (p + 1) := by
    unfold passed
    rw [hg]
  have hle := ha s (p + 1) hpassed e hstuck hs
  apply Nat.lt_of_le_of_ne (Nat.le_of_lt_succ hle)
  intro heq
  have hrq : (st.entities e).rq = ⟨s, p⟩ := by rw [← hs, ← heq]
  have hmem := (hl.listed ⟨s, p⟩ e).mpr ⟨hstuck.1, hrq⟩
  have hnot := ((st.rqs ⟨s, p⟩).pick_eq_none _).mp hpick e hmem
  simp [isReady, hstuck.2.1, hstuck.2.2.1] at hnot

theorem Awake.scan (ha : Awake st) (hl : Linked st) {p : ℕ} {woken : Bool}
    (hg : st.threads s = .scan p woken) : Awake (st.scan s p woken) := by
  have haside : ∀ i, i ≠ s → Aside st (st.scan s p woken) i := fun i hi => aside_scan hi
  have hentities : (st.scan s p woken).entities = st.entities := by
    unfold State.scan
    split
    · rfl
    · split <;> rfl
  have hready : ∀ i, (st.scan s p woken).ready i = st.ready i := by
    intro i
    unfold State.scan
    split
    · rfl
    · split <;> rfl
  apply ha.moved _ haside fun i _ => hready i
  · rw [hentities]
    exact fun e _ => Entity.eased_refl _
  · intro q hq e hstuck he
    rw [hentities] at hstuck he ⊢
    have hnone := fun p (hg : st.threads s = .scan p false) (hpick : (st.rqs ⟨s, p⟩).pick _ = none) =>
      ha.scan_none hl hg hpick hstuck he
    clear haside hentities hready
    unfold State.scan RunQueue.selectEntity at hq
    cases hpick : (st.rqs ⟨s, p⟩).pick st.isReady with
    | some i =>
      rw [hpick] at hq
      obtain ⟨hthread, -⟩ | ⟨q', hthread, -⟩ := passed_eq hq <;> simp [setThread] at hthread
    | none =>
      rw [hpick] at hq
      cases woken with
      | true =>
        cases p <;> obtain ⟨hthread, -⟩ | ⟨q', hthread, -⟩ := passed_eq hq <;>
          simp at hthread
      | false =>
        have hlt := hnone p hg hpick
        cases p with
        | zero => exact absurd hlt (Nat.not_lt_zero _)
        | succ p =>
          obtain ⟨hthread, -⟩ | ⟨q', hthread, rfl⟩ := passed_eq hq
          · simp at hthread
          · rw [setThread_self] at hthread
            cases hthread
            exact hlt

theorem ready_congr {i : ℕ} (hcount : st'.hwRqCount i = st.hwRqCount i)
    (hlimit : st'.hwSubmissionLimit i = st.hwSubmissionLimit i) : st'.ready i = st.ready i := by
  unfold State.ready
  rw [hcount, hlimit]

/-- A thread goes on with a job, or asks again, and only an entity of its scheduler changes. -/
theorem Awake.busy (ha : Awake st) {t : Thread}
    (hthreads : st'.threads = Function.update st.threads s t)
    (ht : t.awake) (hcount : st'.hwRqCount = st.hwRqCount)
    (hlimit : st'.hwSubmissionLimit = st.hwSubmissionLimit)
    (hentities : st'.entities = st.entities ∨ ∃ e y, (st.entities e).rq.sched = s ∧
      st'.entities = Function.update st.entities e y ∧ y.rq = (st.entities e).rq) : Awake st' := by
  apply ha.unpassed (s := s)
  case hpassed =>
    apply passed_of_awake
    rw [hthreads, Function.update_self]
    exact ht
  case haside =>
    intro i hi
    refine .inl ?_
    rw [hthreads, Function.update_of_ne hi]
  case hready => exact fun i _ => ready_congr (congrFun hcount i) (congrFun hlimit i)
  case hless =>
    intro i hi
    cases hentities with
    | inl hsame =>
      rw [hsame]
      exact Entity.eased_refl _
    | inr hupdate =>
      obtain ⟨e, y, hrq, heq, hy⟩ := hupdate
      rw [heq] at hi ⊢
      exact Entity.eased_apart hrq hy i hi

theorem ready_killJob (st : State) (e j i : ℕ) : (st.killJob e j).ready i = st.ready i := by
  unfold State.killJob
  dsimp only
  split
  · rfl
  · split <;> rfl

theorem Moves.awake (hs : Sound st) (hapt : Apt st) (ha : Awake st) {ev : Event}
    (hwakes : st.wakesAll ev) (h : Moves st ev st') : Awake st' := by
  have hl := hs.linked
  have haside := fun i => @Moves.aside _ _ _ h i
  cases h with
  | @create e rq rqList guilty hg hr =>
    apply ha.still (fun i => haside i (by simp [Event.mover])) fun _ => rfl
    apply Entity.eased_update
    simp [Entity.Eased, Entity.Stuck]
  | @jobInit e deps vm hphase hpusher hdeps =>
    have hidle := (selectRq_entity st e).2.trans hpusher
    have hmake : Awake ((st.selectRq e).makeJob e deps vm) := by
      apply Awake.still (ha.selectRq (e := e))
      · exact fun i => .inl rfl
      · exact fun _ => rfl
      · apply Entity.eased_update
        simp [Entity.Eased, Entity.Stuck, Pusher.wakes, hidle]
    exact hmake
  | initFails hphase hpusher => exact ha.selectRq
  | @push e j hg =>
    apply ha.still (fun i => haside i (by simp [Event.mover])) fun _ => rfl
    apply Entity.eased_update
    simp only [Entity.Eased, Entity.Stuck, setJob]
    grind -linarith
  | @enlist e hg =>
    have hstopped := hapt.stopped e
    apply ha.still fun i => haside i (by simp [Event.mover])
    all_goals
      unfold State.enlist
      split
    · exact fun _ => rfl
    · rw [rqAddEntity_eq]
      exact fun _ => rfl
    · apply Entity.eased_update
      simp only [Entity.Eased, Entity.Stuck]
      grind -linarith
    · rw [rqAddEntity_eq]
      simp only [setEntity, Function.update_idem, Function.update_self]
      apply Entity.eased_update
      simp [Entity.Eased, Entity.Stuck, Pusher.wakes]
  | @setPriority e p hphase hp =>
    have hready := hwakes.1
    apply ha.still fun i => haside i (by simp [Event.mover])
    all_goals simp only [State.setPriority, rqAddEntity_eq, rqRemoveEntity_eq, setEntity,
      Function.update_idem, Function.update_self]
    · exact fun _ => rfl
    apply Entity.eased_update
    simp only [Entity.Eased, Entity.Stuck]
    grind -linarith
  | stop | finiRemove =>
    apply ha.still fun i => haside i (by simp [Event.mover])
    all_goals simp only [State.stop, State.finiRemove, rqRemoveEntity_eq, setEntity,
      Function.update_idem, Function.update_self]
    · exact fun _ => rfl
    apply Entity.eased_update
    simp [Entity.Eased, Entity.Stuck]
  | finiDone | blame =>
    apply ha.still (fun i => haside i (by simp [Event.mover])) fun _ => rfl
    apply Entity.eased_update
    exact fun h => ⟨h, rfl⟩
  | publish hg | abandon hg =>
    apply ha.still (fun i => haside i (by simp [Event.mover])) fun _ => rfl
    apply Entity.eased_update
    simp [Entity.Eased, Entity.Stuck, Pusher.wakes, hg, setJob]
  | hwSignal | finish | killCb | otherSignal =>
    exact ha.still (fun i => haside i (by simp [Event.mover])) (fun _ => rfl)
      fun _ => Entity.eased_refl _
  | @finiDependency e hphase =>
    have hended := hl.ended e (by simp [hphase])
    apply ha.still (fun i => haside i (by simp [Event.mover])) fun _ => rfl
    apply Entity.eased_update
    simp [Entity.Eased, Entity.Stuck, hended]
  | @kill e j rest hq hphase =>
    have hended := hl.ended e (by simp [hphase])
    have hnone : ∀ i, (st.entities i).cb ≠ some (.scheduled j, false) := hwakes j (by simp [hq])
    have hent : (st.killJob e j).entities = Function.update st.entities e
        { st.entities e with queue := (st.entities e).queue.tail } := by
      rw [entities_killJob]
      funext i
      simp only [State.fenceScheduled, setJob, setEntity]
      grind -linarith
    apply ha.still fun i => haside i (by simp [Event.mover])
    · exact ready_killJob st e j
    · rw [hent]
      apply Entity.eased_update
      simp [Entity.Eased, Entity.Stuck, hended]
  | @finiPark e hphase hq =>
    have hended := hl.ended e (by simp [hphase])
    have hless : ∀ i, (st.entities i).Eased ((st.finiPark e).entities i) := by
      unfold State.finiPark
      split
      all_goals
        apply Entity.eased_update
        simp [Entity.Eased, Entity.Stuck, setThread, hended]
    unfold State.finiPark at hless ⊢
    split at hless
    · next hempty =>
      rw [if_pos hempty]
      exact ha.still (fun i => .inl rfl) (fun _ => rfl) hless
    · next hempty =>
      rw [if_neg hempty]
      apply ha.unpassed (s := (st.entities e).rq.sched)
      · apply passed_of_awake
        simp [setEntity, Thread.awake]
      · exact fun i hi => aside_setThread hi
      · exact fun _ _ => rfl
      · exact fun i _ => hless i
  | @pushWakeup e hg =>
    have h := ha.wakeup hs (e := e) (f := fun x => { x with pusher := .idle }) fun _ => rfl
    rw [wakeup_eq] at h
    unfold State.pushWakeup
    rw [wakeup_eq]
    exact h
  | @depCb e f hg hf => exact ha.wakeup hs fun _ => rfl
  | @room s hg hr =>
    apply ha.moved _ (fun i hi => aside_setThread hi) fun _ _ => rfl
    · exact fun e _ => Entity.eased_refl _
    · intro p hp e hstuck he
      obtain ⟨hthread, -⟩ | ⟨q, hthread, rfl⟩ := passed_eq hp
      · simp at hthread
      · rw [setThread_self] at hthread
        cases hthread
        have hphase : (st.entities e).phase ≠ .absent := by
          intro heq
          have hended := hl.ended e (by simp [heq])
          have hlisted := hstuck.1
          simp [setThread, hended] at hlisted
        exact (hapt.priority e hphase).1
  | @full s hg hr =>
    apply ha.unpassed _ (fun i hi => aside_setThread hi) fun _ _ => rfl
    · exact fun e _ => Entity.eased_refl _
    · have hr' : (st.setThread s .asleep).ready s = false := hr
      simp [passed, hr']
  | @scan s p woken hg => exact ha.scan hl hg
  | @empty s e hg hq | @selected s e j rest hg hq | @jobBegin s j hg | @runJob s j lost fence hg
  | @vmidGrab s e j fences got hg hf => exact ha.busy rfl rfl rfl rfl (.inl rfl)
  | @count s j hg | @reset s hg =>
    apply ha.unpassed (s := s)
    case haside => exact fun i hi => haside i (by simpa [Event.mover] using hi.symm)
    case hready => exact fun i hi => ready_congr (Function.update_of_ne hi ..) rfl
    case hless => exact fun i _ => Entity.eased_refl _
    case hpassed =>
      apply passed_of_awake
      simp [setThread, State.count, State.reset, Thread.awake]
  | @dependency s e j hg =>
    obtain ⟨hrq, -⟩ := hl.at_entity s e (by rw [hg]; rfl)
    unfold State.dependency
    dsimp only
    split
    · exact ha.busy rfl rfl rfl rfl (.inr ⟨e, _, hrq, rfl, rfl⟩)
    · split
      · exact ha.busy rfl rfl rfl rfl (.inl rfl)
      · exact ha.busy rfl rfl rfl rfl (.inr ⟨e, _, hrq, rfl, rfl⟩)
  | @addDependencyCb s e j f hg =>
    obtain ⟨hrq, -⟩ := hl.at_entity s e (by rw [hg]; rfl)
    have hwait : Awake (st.waitFor s e j f) := by
      unfold State.waitFor
      split
      · exact ha.busy rfl rfl rfl rfl (.inl rfl)
      · exact ha.busy rfl rfl rfl rfl (.inr ⟨e, _, hrq, rfl, rfl⟩)
    unfold State.addDependencyCb
    split
    · exact hwait
    · split
      · exact ha.busy rfl rfl rfl rfl (.inl rfl)
      · split
        · dsimp only
          split
          · exact ha.busy rfl rfl rfl rfl (.inr ⟨e, _, hrq, rfl, rfl⟩)
          · simp only [setEntity, Function.update_self, Function.update_idem]
            exact ha.busy rfl rfl rfl rfl (.inr ⟨e, _, hrq, rfl, rfl⟩)
        · exact hwait
  | @take s e j hg =>
    obtain ⟨hrq, -⟩ := hl.at_entity s e (by rw [hg]; rfl)
    exact ha.busy rfl rfl rfl rfl (.inr ⟨e, _, hrq, rfl, rfl⟩)
  | @post s j hg =>
    have hsched := (hl.held s j .ran (by rw [hg]; rfl)).2
    have hsame := hapt.same
    apply ha.unpassed (s := s)
    case haside => exact fun i hi => haside i (by simpa [Event.mover] using hi.symm)
    case hready => exact fun _ _ => rfl
    case hpassed => exact passed_of_awake (by simp [State.post, Thread.awake])
    case hless =>
      intro i hi
      simp only [State.post, State.fenceScheduled, setThread, setJob] at hi ⊢
      split at hi
      · next hcb => exact absurd ((hsame i j hcb).1.symm.trans hsched) hi
      · next hcb =>
        rw [if_neg hcb]
        exact Entity.eased_refl _
  | @attach s j hg =>
    have hsched := (hl.held s j .posted (by rw [hg]; rfl)).2
    apply ha.unpassed (s := s)
    case haside => exact fun i hi => haside i (by simpa [Event.mover] using hi.symm)
    all_goals
      unfold State.attach
      split
    case hless.isTrue | hless.isFalse => exact fun i _ => Entity.eased_refl _
    case hpassed.isTrue | hpassed.isFalse => exact passed_of_awake (by simp [Thread.awake])
    case hready.isTrue => exact fun _ _ => rfl
    case hready.isFalse =>
      exact fun i hi => ready_congr (Function.update_of_ne (hsched ▸ hi) ..) rfl
  | @processCb j hattached hw' =>
    apply ha.unpassed (s := (st.jobs j).sched)
    case haside => exact fun i hi => haside i (by simp [Event.mover])
    case hless => exact fun i _ => Entity.eased_refl _
    case hready => exact fun i hi => ready_congr (Function.update_of_ne hi ..) rfl
    case hpassed =>
      apply passed_woken st
      simp [State.processJob, wake, setThread, setJob]

theorem start_apt (limit : ℕ → UInt32) : Apt (start limit) := by
  constructor <;> simp [start]

theorem start_awake (limit : ℕ → UInt32) : Awake (start limit) := by
  intro s p hp
  cases hp

/-- The runs none of whose steps leaves a thread asleep that is needed. -/
abbrev Wakeful (limit : ℕ → UInt32) : State → Prop := Reached limit wakesAll

theorem Wakeful.awake {limit : ℕ → UInt32} (h : Wakeful limit st) : Apt st ∧ Awake st := by
  induction h with
  | start h => exact h ▸ ⟨start_apt limit, start_awake limit⟩
  | next hr hg hstep ih =>
    have hmoves := step_moves hstep
    have hs := Reached.sound hr
    have hw := Reached.waiting hr
    exact ⟨hmoves.apt hs hw ih.1 hg, hmoves.awake hs ih.1 ih.2 hg⟩

/-- While the thread of a scheduler sleeps, the hardware has no room, or each entity on its run queues
that is ready was just pushed to, and `drm_sched_entity_push_job` has yet to wake the thread. -/
theorem asleep_without_work {limit : ℕ → UInt32} (h : Wakeful limit st)
    (hs : st.threads s = .asleep) : st.hwSubmissionLimit s ≤ st.hwRqCount s ∨
      ∀ r e, r.sched = s → e ∈ (st.rqs r).entities → st.isReady e →
        (st.entities e).pusher = .queued ∨ (st.entities e).pusher = .listed := by
  cases hr : st.ready s with
  | false =>
    unfold ready at hr
    exact .inl (UInt32.not_lt.mp (of_decide_eq_false hr))
  | true =>
    refine .inr fun r e hrs hmem hready => ?_
    by_contra hpusher
    have hlisted := ((Reached.sound h).linked.listed r e).mp hmem
    simp only [isReady, Bool.and_eq_true, Bool.not_eq_true', List.isEmpty_eq_false_iff,
      Option.isNone_iff_eq_none] at hready
    have hstuck : (st.entities e).Stuck := by
      refine ⟨hlisted.1, hready.1, hready.2, ?_⟩
      cases hp : (st.entities e).pusher <;> simp [hp, Pusher.wakes] at hpusher ⊢
    have hpassed : st.passed s = some 0 := by
      unfold passed
      rw [hs, if_pos hr]
    have hlt := h.awake.2 s 0 hpassed e hstuck (by rw [hlisted.2, hrs])
    exact absurd hlt (Nat.not_lt_zero _)

/-- A job that waits for a fence from elsewhere, and one that waits for the first job. -/
def waitingRun : List Event :=
  [.create 0 ⟨0, 2⟩ [] none, .create 1 ⟨0, 2⟩ [] none, .jobInit 0 [.other 7] false, .publish 0, .push 0,
    .enlist 0, .pushWakeup 0, .jobInit 1 [.finished 0] false, .publish 1, .push 1, .enlist 1] ++
  List.replicate 20 (.thread 0)

theorem asleep_without_work_waiting : ∃ st, Wakeful (fun _ => 2) st ∧ st.threads 0 = .asleep ∧
    (st.rqs ⟨0, 2⟩).entities = [0, 1] ∧ (st.entities 1).queue = [1] ∧
      (st.hwSubmissionLimit 0 ≤ st.hwRqCount 0 ∨ st.isReady 0 = false) := by
  have hrun : (waitingRun.foldlM State.step (start fun _ => 2)).map
      (fun st => (st.threads 0, (st.rqs ⟨0, 2⟩).entities, (st.entities 1).queue,
        (st.entities 0).pusher)) = some (.asleep, [0, 1], [1], .idle) := by decide +kernel
  have hwakes : ∀ st, ∀ ev ∈ waitingRun, wakesAll st ev := by
    intro st ev hev
    simp only [waitingRun, List.mem_append, List.mem_cons, List.mem_replicate] at hev
    cases ev <;> first | trivial | simp at hev
  obtain ⟨st, hreach, hst⟩ := reached_of_run hwakes hrun
  simp only [Prod.mk.injEq] at hst
  obtain ⟨hthread, hrq, hqueue, hpusher⟩ := hst
  refine ⟨st, hreach, hthread, hrq, hqueue, ?_⟩
  apply (asleep_without_work hreach hthread).imp_right
  intro hpushers
  by_contra hready
  have hwaking := hpushers ⟨0, 2⟩ 0 rfl (by simp [hrq]) (by simpa using hready)
  simp [hpusher] at hwaking

/-- The first job is killed: the other could be run now, and nobody wakes the thread. -/
def killedRun : List Event :=
  waitingRun ++ [.pushWakeup 1, .finiRemove 0, .finiPark 0, .finiDependency 0] ++
    List.replicate 6 (.thread 0) ++ [.kill 0, .finiDone 0]

theorem asleep_with_work : ∃ st, Reached (fun _ => 2) (fun _ _ => True) st ∧
    st.threads 0 = .asleep ∧ st.hwRqCount 0 < st.hwSubmissionLimit 0 ∧
      1 ∈ (st.rqs ⟨0, 2⟩).entities ∧ st.isReady 1 ∧ (st.entities 1).pusher = .idle := by
  have hrun : (killedRun.foldlM State.step (start fun _ => 2)).map (fun st =>
      (st.threads 0, st.ready 0, (st.rqs ⟨0, 2⟩).entities, st.isReady 1, (st.entities 1).pusher)) =
        some (.asleep, true, [1], true, .idle) := by decide +kernel
  obtain ⟨st, hreach, hst⟩ := reached_of_run (fun _ _ _ => trivial) hrun
  simp only [Prod.mk.injEq] at hst
  obtain ⟨hthread, hready, hrq, hisReady, hpusher⟩ := hst
  exact ⟨st, hreach, hthread, of_decide_eq_true hready, by simp [hrq], hisReady, hpusher⟩

end State

end Gsgpu.Sched
