import Gsgpu.Sched.Machine
import Gsgpu.Sched.Placed

/-! What holds between the parts of the scheduler at any time: the run queues and the entities, the
threads and the queues they take from, the flags of a job and how far it has come. -/
namespace Gsgpu.Sched

/-- The job in a thread's hands, and how far it has come. -/
def Thread.held : Thread → Option (ℕ × Stage)
  | .popped j => some (j, .popped)
  | .counted j => some (j, .counted)
  | .begun j => some (j, .begun)
  | .ran j => some (j, .ran)
  | .posted j => some (j, .posted)
  | _ => none

/-- The entity a thread is about to take a job from. -/
def Thread.entity : Thread → Option ℕ
  | .selected e | .depend e _ | .grab e _ | .adding e _ _ | .taking e _ => some e
  | _ => none

/-- The entity and the job that a thread is about to take. -/
def Thread.front : Thread → Option (ℕ × ℕ)
  | .depend e j | .grab e j | .adding e j _ | .taking e j => some (e, j)
  | _ => none

/-- The flags of a job are those of its stage. -/
structure Job.Consistent (x : Job) : Prop where
  scheduled : x.scheduled = x.stage.isScheduled
  finished : x.finished = x.stage.isFinished
  attached : x.attached = decide (x.stage = .attached)
  freed : x.freed = if x.stage.isFreed then 1 else 0
  killWait : x.killWait.isSome = decide (x.stage = .dying)

/-- The job of an entity that its pusher has made. -/
def Pusher.job : Pusher → Option ℕ
  | .made j => some j
  | .published j => some j
  | _ => none

namespace State

/-- What becomes of the jobs. -/
def pipeline (st : State) : Pipeline where
  next := st.next
  entity j := (st.jobs j).entity
  sched j := (st.jobs j).sched
  stage j := (st.jobs j).stage
  queue e := (st.entities e).queue
  hand s := (st.threads s).held.map Prod.fst
  mirror := st.mirror
  hwRqCount := st.hwRqCount
  hwSubmissionLimit := st.hwSubmissionLimit
  pushed := st.pushed
  killed := st.killed
  taken := st.taken
  ran := st.ran

/-- The flags of all jobs are those of their stages. -/
def Flagged (st : State) : Prop := ∀ j, (st.jobs j).Consistent

/-- The parts agree. -/
structure Linked (st : State) : Prop where
  held : ∀ s j a, (st.threads s).held = some (j, a) → (st.jobs j).stage = a ∧ (st.jobs j).sched = s
  at_entity : ∀ s e, (st.threads s).entity = some e → (st.entities e).rq.sched = s ∧
    ((st.entities e).phase = .live ∨ (st.entities e).phase = .removed) ∧ (st.entities e).queue ≠ []
  at_front : ∀ s e j, (st.threads s).front = some (e, j) → (st.entities e).queue.head? = some j
  listed : ∀ r e, e ∈ (st.rqs r).entities ↔ (st.entities e).listed ∧ (st.entities e).rq = r
  ended : ∀ e, (st.entities e).phase ≠ .live →
    (st.entities e).listed = false ∧ (st.entities e).pusher = .idle
  absent : ∀ e, (st.entities e).phase = .absent → (st.entities e).queue = []
  owner : ∀ j, (st.jobs j).stage ≠ .unborn → (st.entities (st.jobs j).entity).phase ≠ .absent
  queued : ∀ e, ∀ j ∈ (st.entities e).queue, (st.jobs j).sched = (st.entities e).rq.sched
  made : ∀ e j, (st.entities e).pusher.job = some j → (st.jobs j).stage = .made ∧
    (st.jobs j).entity = e ∧ (st.jobs j).sched = (st.entities e).rq.sched ∧ ∀ k ∈ st.pushed e, k < j
  killed : ∀ e, st.killed e ≠ [] → (st.entities e).phase = .killing ∨ (st.entities e).phase = .gone
  last : ∀ s j a, (st.threads s).held = some (j, a) → a.beforeRun →
    (st.entities (st.jobs j).entity).phase = .gone ∨
      (st.entities (st.jobs j).entity).lastScheduled = some j ∧
        (st.entities (st.jobs j).entity).rq.sched = s

@[grind =] theorem held_woken (t : Thread) : t.woken.held = t.held := by cases t <;> rfl

@[grind =] theorem entity_woken (t : Thread) : t.woken.entity = t.entity := by cases t <;> rfl

@[grind =] theorem front_woken (t : Thread) : t.woken.front = t.front := by cases t <;> rfl

theorem rqAddEntity_eq (st : State) (rq : Rq) (e : ℕ) : st.rqAddEntity rq e =
    { st with
      entities := Function.update st.entities e { st.entities e with listed := true }
      rqs := Function.update st.rqs rq
        (if (st.entities e).listed then st.rqs rq else (st.rqs rq).addEntity e) } := by
  unfold rqAddEntity setEntity
  split
  · next h =>
    have heq : { st.entities e with listed := true } = st.entities e := by rw [← h]
    rw [heq, Function.update_eq_self, Function.update_eq_self]
  · rfl

theorem rqRemoveEntity_eq (st : State) (rq : Rq) (e : ℕ) : st.rqRemoveEntity rq e =
    { st with
      entities := Function.update st.entities e { st.entities e with listed := false }
      rqs := Function.update st.rqs rq
        (if (st.entities e).listed then (st.rqs rq).removeEntity e else st.rqs rq) } := by
  unfold rqRemoveEntity setEntity
  cases h : (st.entities e).listed with
  | false =>
    have heq : { st.entities e with listed := false } = st.entities e := by rw [← h]
    simp [heq]
  | true => simp

theorem wakeup_eq (st : State) (s : ℕ) : st.wakeup s =
    st.setThread s (if st.ready s then (st.threads s).woken else st.threads s) := by
  unfold wakeup wake setThread
  split
  · rfl
  · rw [Function.update_eq_self]

attribute [local grind =] Function.update_apply RunQueue.mem_addEntity RunQueue.mem_removeEntity
  RunQueue.entities_setCurrent
attribute [local grind] Thread.held Thread.entity Thread.front Pusher.job mayPark

variable {st st' : State}

/-- What `Linked` speaks of, except the threads, is the same in both states. -/
structure SameLinks (st st' : State) : Prop where
  job : ∀ j, (st'.jobs j).stage = (st.jobs j).stage ∧ (st'.jobs j).entity = (st.jobs j).entity ∧
    (st'.jobs j).sched = (st.jobs j).sched
  phase : ∀ e, (st'.entities e).phase = (st.entities e).phase
  pusher : ∀ e, (st'.entities e).pusher = (st.entities e).pusher
  rq : ∀ e, (st'.entities e).rq = (st.entities e).rq
  listed : ∀ e, (st'.entities e).listed = (st.entities e).listed
  queue : ∀ e, (st'.entities e).queue = (st.entities e).queue
  lastScheduled : ∀ e, (st'.entities e).lastScheduled = (st.entities e).lastScheduled
  rqs : ∀ r, (st'.rqs r).entities = (st.rqs r).entities
  pushed : st'.pushed = st.pushed
  killed : st'.killed = st.killed

/-- A thread keeps what it holds and where it takes from, or lets go of it. -/
structure Keeps (t t' : Thread) : Prop where
  held : t'.held = none ∨ t'.held = t.held
  entity : t'.entity = none ∨ t'.entity = t.entity
  front : t'.front = none ∨ t'.front = t.front

theorem Keeps.refl (t : Thread) : Keeps t t := ⟨.inr rfl, .inr rfl, .inr rfl⟩

theorem keeps_woken (t : Thread) : Keeps t t.woken :=
  ⟨.inr (held_woken t), .inr (entity_woken t), .inr (front_woken t)⟩

theorem keeps_check (t : Thread) : Keeps t .check := ⟨.inl rfl, .inl rfl, .inl rfl⟩

theorem inHand_of_held {t : Thread} {j : ℕ} {a : Stage} (h : t.held = some (j, a)) :
    a.inHand = true := by
  cases t <;> cases h <;> rfl

theorem entity_of_front {t : Thread} {e j : ℕ} (h : t.front = some (e, j)) :
    t.entity = some e := by
  cases t <;> cases h <;> rfl

/-- Nothing that is linked changes. -/
theorem Linked.frame (hs : Linked st) (h : SameLinks st st')
    (ht : ∀ s, Keeps (st.threads s) (st'.threads s)) : Linked st' := by
  obtain ⟨hjob, hphase, hpusher, hrq, hlisted, hqueue, hlast, hrqs, hpushed, hkilled⟩ := h
  have hheld := fun s => (ht s).held
  have hentity := fun s => (ht s).entity
  have hfront := fun s => (ht s).front
  have hstage := fun j => (hjob j).1
  have howner := fun j => (hjob j).2.1
  have hsched := fun j => (hjob j).2.2
  obtain ⟨held, at_entity, at_front, listed, ended, absent, owner, queued, made, killed, last⟩ := hs
  constructor <;> try simp only [hphase, hpusher, hrq, hlisted, hqueue, hlast, hrqs, hpushed,
    hkilled, hstage, howner, hsched]
  case last =>
    intro s j a ha
    exact last s j a (((hheld s).resolve_left (by simp [ha])).symm.trans ha)
  all_goals grind -linarith

/-- Jobs that no thread holds and no pusher has made come further. -/
theorem Linked.stages (hs : Linked st)
    (hjob : ∀ j, (st'.jobs j).entity = (st.jobs j).entity ∧
      (st'.jobs j).sched = (st.jobs j).sched ∧ ((st'.jobs j).stage = (st.jobs j).stage ∨
        (st.jobs j).stage ≠ .unborn ∧ (st.jobs j).stage ≠ .made ∧
          ∀ s a, (st.threads s).held ≠ some (j, a)))
    (he : st'.entities = st.entities) (hr : st'.rqs = st.rqs)
    (ht : ∀ s, Keeps (st.threads s) (st'.threads s)) (hp : st'.pushed = st.pushed)
    (hk : st'.killed = st.killed) : Linked st' := by
  have hheld := fun s => (ht s).held
  have hentity := fun s => (ht s).entity
  have hfront := fun s => (ht s).front
  have howner := fun j => (hjob j).1
  have hsched := fun j => (hjob j).2.1
  obtain ⟨held, at_entity, at_front, listed, ended, absent, owner, queued, made, killed, last⟩ := hs
  constructor <;> try simp only [he, hr, hp, hk, howner, hsched]
  case last =>
    intro s j a ha
    exact last s j a (((hheld s).resolve_left (by simp [ha])).symm.trans ha)
  all_goals grind -linarith

/-- A thread goes on with the job it holds. -/
theorem Linked.advance (hs : Linked st) {s j : ℕ} {a b : Stage} {t : Thread} {f : Job → Job}
    (hold : (st.threads s).held = some (j, a)) (ht : t.held = some (j, b))
    (hent : t.entity = none) (hfront : t.front = none) (hrun : b.beforeRun → a.beforeRun)
    (hf : ∀ x, (f x).stage = b ∧ (f x).entity = x.entity ∧ (f x).sched = x.sched) :
    Linked ((st.setJob j f).setThread s t) := by
  have hin := inHand_of_held ht
  have hin' := inHand_of_held hold
  obtain ⟨held, at_entity, at_front, listed, ended, absent, owner, queued, made, killed, last⟩ := hs
  obtain ⟨hstage, hsched⟩ := held s j a hold
  simp only [State.setJob, State.setThread]
  constructor <;> dsimp only
  case last =>
    intro i k c hk hc
    have hentity : ∀ x, (Function.update st.jobs j (f (st.jobs j)) x).entity =
        (st.jobs x).entity := by
      grind -linarith
    rw [hentity]
    by_cases hi : i = s
    · subst hi
      rw [Function.update_self, ht] at hk
      cases hk
      exact last i j a hold (hrun hc)
    · rw [Function.update_of_ne hi] at hk
      exact last i k c hk hc
  all_goals grind -linarith

theorem Linked.setJob (hs : Linked st) {j : ℕ} {f : Job → Job}
    (hf : ∀ x, (f x).stage = x.stage ∧ (f x).entity = x.entity ∧ (f x).sched = x.sched) :
    Linked (st.setJob j f) := by
  apply hs.frame
  case ht => exact fun s => .refl _
  constructor <;> simp only [State.setJob] <;> grind -linarith

theorem Linked.setEntity (hs : Linked st) {e : ℕ} {f : Entity → Entity}
    (hf : ∀ x, (f x).phase = x.phase ∧ (f x).pusher = x.pusher ∧ (f x).rq = x.rq ∧
      (f x).listed = x.listed ∧ (f x).queue = x.queue ∧ (f x).lastScheduled = x.lastScheduled) :
    Linked (st.setEntity e f) := by
  apply hs.frame
  case ht => exact fun s => .refl _
  constructor <;> simp only [State.setEntity] <;> grind -linarith

theorem keeps_setThread {s : ℕ} {t : Thread} (ht : Keeps (st.threads s) t) (i : ℕ) :
    Keeps (st.threads i) ((st.setThread s t).threads i) := by
  by_cases hi : i = s
  · subst hi
    simpa [State.setThread] using ht
  · simpa [State.setThread, hi] using .refl _

theorem Linked.setThread (hs : Linked st) {s : ℕ} {t : Thread} (ht : Keeps (st.threads s) t) :
    Linked (st.setThread s t) := by
  apply hs.frame
  case ht => exact keeps_setThread ht
  constructor <;> intros <;> simp [State.setThread]

theorem Linked.fenceScheduled (hs : Linked st) (j : ℕ) : Linked (st.fenceScheduled j) := by
  apply hs.frame
  case ht => exact fun s => .refl _
  constructor <;> simp only [State.fenceScheduled, State.setJob] <;> grind -linarith

theorem Linked.wakeup (hs : Linked st) (s : ℕ) : Linked (st.wakeup s) := by
  rw [wakeup_eq]
  apply hs.setThread
  split
  · exact keeps_woken _
  · exact .refl _

/-- The queue starts with the job that a thread is about to take. -/
theorem Linked.front (hs : Linked st) {s e j : ℕ} (h : (st.threads s).front = some (e, j)) :
    ∃ rest, (st.entities e).queue = j :: rest := by
  have hhead := hs.at_front s e j h
  cases hq : (st.entities e).queue with
  | nil =>
    rw [hq] at hhead
    cases hhead
  | cons i rest =>
    rw [hq] at hhead
    cases hhead
    exact ⟨rest, rfl⟩

/-- No job of the entity that a thread is about to take from is taken and not run. -/
theorem Linked.no_unrun (hs : Linked st) (hp : st.pipeline.Placed) {s e k : ℕ}
    (he : (st.threads s).entity = some e) (hk : (st.jobs k).entity = e) :
    (st.jobs k).stage.beforeRun = false := by
  by_contra hrun
  obtain ⟨hrq, hphase, -⟩ := hs.at_entity s e he
  have hin : (st.jobs k).stage.inHand = true := by
    cases hstage : (st.jobs k).stage <;> simp [hstage, Stage.beforeRun, Stage.inHand] at hrun ⊢
  have hheld := (hp.held (st.jobs k).sched k).mpr ⟨hin, rfl⟩
  obtain ⟨⟨j, a⟩, ha, rfl⟩ := Option.map_eq_some_iff.mp hheld
  have hstage := (hs.held _ _ _ ha).1
  dsimp only at hrun hk hrq hphase ha hstage
  have hlast := hs.last _ _ _ ha (by rw [← hstage]; simpa using hrun)
  rw [hk] at hlast
  cases hlast with
  | inl hgone =>
    rw [hgone] at hphase
    simp at hphase
  | inr hsame =>
    rw [hrq.symm.trans hsame.2] at he
    cases ht : st.threads (st.jobs j).sched <;> simp [ht, Thread.held, Thread.entity] at he ha

end State

end Gsgpu.Sched
