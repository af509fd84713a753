import Gsgpu.Sched.Sound

/-! Every step of the scheduler keeps its parts linked. -/
namespace Gsgpu.Sched.State

attribute [local grind =] Function.update_apply RunQueue.mem_addEntity RunQueue.mem_removeEntity
  RunQueue.entities_setCurrent
attribute [local grind] Thread.held Thread.entity Thread.front Pusher.job mayPark

variable {st st' : State} {s e j : ℕ}

/-- Only what is not linked differs. -/
theorem Linked.of_eq (hs : Linked st) (hj : st'.jobs = st.jobs) (he : st'.entities = st.entities)
    (hr : st'.rqs = st.rqs) (ht : st'.threads = st.threads) (hp : st'.pushed = st.pushed)
    (hk : st'.killed = st.killed) : Linked st' := by
  apply hs.frame
  case ht =>
    intro s
    rw [ht]
    exact .refl _
  constructor <;> simp [hj, he, hr, hp, hk]

theorem Linked.create (hs : Linked st) (rq : Rq) (rqList : List Rq) (guilty : Option Bool)
    (hg : (st.entities e).phase = .absent) : Linked (st.create e rq rqList guilty) := by
  have hin := fun s j a => @inHand_of_held (st.threads s) j a
  have hfe := fun s e j => @entity_of_front (st.threads s) e j
  obtain ⟨held, at_entity, at_front, listed, ended, absent, owner, queued, made, killed, last⟩ := hs
  simp only [State.create, State.setEntity]
  constructor <;> dsimp only
  all_goals grind -linarith

/-- What `drm_sched_entity_select_rq` does: nothing, or an entity without jobs, the last of which has
finished, goes elsewhere. -/
theorem selectRq_cases (st : State) (e : ℕ) :
    st.selectRq e = st ∨ (st.entities e).queue = [] ∧
      (∀ k, (st.entities e).lastScheduled = some k → (st.jobs k).finished = true) ∧
      ∃ rq ∈ (st.entities e).rqList, st.selectRq e =
        (st.rqRemoveEntity (st.entities e).rq e).setEntity e fun x => { x with rq := rq } := by
  have hfree : ∀ (l : List Rq) (least : UInt32) (best : Option Rq) (rq : Rq),
      st.freeSched least best l = some rq → best = some rq ∨ rq ∈ l := by
    intro l
    induction l with
    | nil => exact fun _ _ _ h => .inl h
    | cons r l ih =>
      intro least best rq h
      unfold freeSched at h
      split at h
      · cases ih _ _ _ h with
        | inl heq => exact .inr (by simp [Option.some.inj heq])
        | inr hmem => exact .inr (List.mem_cons_of_mem _ hmem)
      · exact (ih _ _ _ h).imp_right (List.mem_cons_of_mem _)
  unfold selectRq
  dsimp only
  split
  · exact .inl rfl
  · next hq =>
    split
    · exact .inl rfl
    · next hlast =>
      cases hrq : st.getFreeSched e with
      | none => exact .inl rfl
      | some rq =>
        dsimp only
        split
        · exact .inl rfl
        · simp only [Bool.or_eq_true, Bool.not_eq_true', decide_eq_true_eq, not_or,
            Bool.not_eq_false, List.isEmpty_iff] at hq
          refine .inr ⟨hq.1, fun k hk => ?_, rq, ?_, rfl⟩
          · rw [hk] at hlast
            simpa using hlast
          · exact (hfree _ _ _ _ hrq).resolve_left (by simp)

theorem Linked.selectRq (hs : Linked st) (hf : Flagged st)
    (hg : (st.entities e).phase = .live ∧ (st.entities e).pusher = .idle) :
    Linked (st.selectRq e) := by
  obtain hsame | ⟨hq, hlast, rq, -, heq⟩ := st.selectRq_cases e
  · rw [hsame]
    exact hs
  · rw [heq, rqRemoveEntity_eq]
    have hrun : ∀ k, (st.entities e).lastScheduled = some k →
        (st.jobs k).stage.beforeRun = false := by
      intro k hk
      have hfin := hlast k hk
      rw [(hf k).finished] at hfin
      cases hstage : (st.jobs k).stage <;> simp [hstage, Stage.isFinished, Stage.beforeRun] at hfin ⊢
    have hfe := fun s e j => @entity_of_front (st.threads s) e j
    obtain ⟨held, at_entity, at_front, listed, ended, absent, owner, queued, made, killed, last⟩ :=
      hs
    simp only [State.setEntity]
    constructor <;> dsimp only
    all_goals grind -linarith

theorem Linked.makeJob (hs : Linked st) (hp : st.pipeline.Placed) (ho : st.pipeline.Ordered)
    (deps : List Fence) (vm : Bool)
    (hg : (st.entities e).phase = .live ∧ (st.entities e).pusher = .idle) :
    Linked (st.makeJob e deps vm) := by
  have hfresh := hp.fresh
  have hqueued := hp.queued
  have hpushed : ∀ k ∈ st.pushed e, k < st.next := fun k hk => ho.pushed_lt hp hk
  have hin := fun s j a => @inHand_of_held (st.threads s) j a
  obtain ⟨held, at_entity, at_front, listed, ended, absent, owner, queued, made, killed, last⟩ := hs
  simp only [pipeline] at hfresh hqueued
  simp only [State.makeJob, State.setEntity]
  constructor <;> dsimp only
  all_goals try grind -linarith

theorem Linked.publish (hs : Linked st) (hg : (st.entities e).pusher = .made j) :
    Linked (st.publish e j) := by
  obtain ⟨held, at_entity, at_front, listed, ended, absent, owner, queued, made, killed, last⟩ := hs
  simp only [State.publish, State.setEntity, State.setJob]
  constructor <;> dsimp only
  all_goals grind -linarith

theorem Linked.abandon (hs : Linked st) :
    Linked (st.setEntity e fun x => { x with pusher := .idle }) := by
  obtain ⟨held, at_entity, at_front, listed, ended, absent, owner, queued, made, killed, last⟩ := hs
  simp only [State.setEntity]
  constructor <;> dsimp only
  all_goals grind -linarith

theorem Linked.pushJob (hs : Linked st) (hp : st.pipeline.Placed)
    (hg : (st.entities e).pusher = .published j) : Linked (st.pushJob e j) := by
  have hplace := hs.made e j (by rw [hg]; rfl)
  have hqueued := hp.queued
  have hin := fun s j a => @inHand_of_held (st.threads s) j a
  obtain ⟨held, at_entity, at_front, listed, ended, absent, owner, queued, made, killed, last⟩ := hs
  simp only [pipeline] at hqueued
  simp only [State.pushJob, State.setEntity, State.setJob]
  constructor <;> dsimp only
  case at_entity =>
    intro s e' he
    have hat := at_entity s e' he
    by_cases heq : e' = e
    · subst heq
      simpa using hat.imp_right And.left
    · simpa [heq] using hat
  case at_front =>
    intro s e' j' he
    have hat := at_front s e' j' he
    by_cases heq : e' = e
    · subst heq
      simp [List.head?_append, hat]
    · simpa [heq] using hat
  all_goals grind -linarith

theorem Linked.enlist (hs : Linked st) (hg : (st.entities e).pusher = .queued) :
    Linked (st.enlist e) := by
  unfold State.enlist
  split
  · exact hs.abandon
  · rw [rqAddEntity_eq]
    obtain ⟨held, at_entity, at_front, listed, ended, absent, owner, queued, made, killed, last⟩ :=
      hs
    simp only [State.setEntity]
    constructor <;> dsimp only
    all_goals grind -linarith

theorem Linked.setPriority (hs : Linked st) (priority : ℕ)
    (hg : (st.entities e).phase = .live) : Linked (st.setPriority e priority) := by
  obtain ⟨held, at_entity, at_front, listed, ended, absent, owner, queued, made, killed, last⟩ := hs
  simp only [State.setPriority, rqAddEntity_eq, rqRemoveEntity_eq, State.setEntity]
  constructor <;> dsimp only
  all_goals grind -linarith

theorem Linked.stop (hs : Linked st) : Linked (st.stop e) := by
  obtain ⟨held, at_entity, at_front, listed, ended, absent, owner, queued, made, killed, last⟩ := hs
  simp only [State.stop, rqRemoveEntity_eq, State.setEntity]
  constructor <;> dsimp only
  all_goals grind -linarith

theorem Linked.finiRemove (hs : Linked st)
    (hg : (st.entities e).phase = .live ∧ (st.entities e).pusher = .idle) :
    Linked (st.finiRemove e) := by
  obtain ⟨held, at_entity, at_front, listed, ended, absent, owner, queued, made, killed, last⟩ := hs
  simp only [State.finiRemove, rqRemoveEntity_eq, State.setEntity]
  constructor <;> dsimp only
  all_goals grind -linarith

/-- An entity that no thread takes from goes on with its end. -/
theorem Linked.setPhase (hs : Linked st) {f : Entity → Entity}
    (hg : (st.entities e).phase ≠ .live ∧ (st.entities e).phase ≠ .absent)
    (hat : ∀ s, (st.threads s).entity ≠ some e)
    (hphase : (f (st.entities e)).phase = .gone ∨
      (f (st.entities e)).phase = .killing ∧ (st.entities e).phase ≠ .gone ∧
        (f (st.entities e)).lastScheduled = (st.entities e).lastScheduled ∨
      (f (st.entities e)).phase = .parked ∧ (st.entities e).phase = .removed ∧
        (f (st.entities e)).lastScheduled = (st.entities e).lastScheduled)
    (hpusher : (f (st.entities e)).pusher = (st.entities e).pusher)
    (hrq : (f (st.entities e)).rq = (st.entities e).rq)
    (hlisted : (f (st.entities e)).listed = (st.entities e).listed)
    (hqueue : (f (st.entities e)).queue = (st.entities e).queue) : Linked (st.setEntity e f) := by
  obtain ⟨held, at_entity, at_front, listed, ended, absent, owner, queued, made, killed, last⟩ := hs
  have hfe := fun s e j => @entity_of_front (st.threads s) e j
  simp only [State.setEntity]
  constructor <;> dsimp only
  all_goals grind -linarith

/-- A thread takes from no entity that is past its removal, or that has no jobs. -/
theorem Linked.not_at (hs : Linked st)
    (h : (st.entities e).phase = .parked ∨ (st.entities e).phase = .killing ∨
      (st.entities e).queue = [] ∨ st.mayPark (st.entities e).rq.sched) (s : ℕ) :
    (st.threads s).entity ≠ some e := by
  intro he
  obtain ⟨hrq, hphase, hqueue⟩ := hs.at_entity s e he
  rw [hrq] at h
  have hpark : st.mayPark s = false := by
    unfold mayPark
    cases ht : st.threads s <;> simp [ht, Thread.entity] at he ⊢
  rw [hpark] at h
  grind -linarith

theorem Linked.finiPark (hs : Linked st)
    (hg : (st.entities e).phase = .removed ∧
      ((st.entities e).queue = [] ∨ st.mayPark (st.entities e).rq.sched)) :
    Linked (st.finiPark e) := by
  have hat := hs.not_at (.inr (.inr hg.2))
  unfold State.finiPark
  split
  · exact hs.setPhase (by simp [hg.1]) hat (.inr (.inl ⟨rfl, by simp [hg.1], rfl⟩)) rfl rfl rfl rfl
  · have hcheck := hs.setThread (keeps_check (st.threads (st.entities e).rq.sched))
    have hat' : ∀ s, ((st.setThread (st.entities e).rq.sched .check).threads s).entity ≠ some e := by
      intro s
      unfold State.setThread
      by_cases hi : s = (st.entities e).rq.sched
      · simp [hi, Thread.entity]
      · simpa [hi] using hat s
    exact hcheck.setPhase (by simp [State.setThread, hg.1]) hat'
      (.inr (.inr ⟨rfl, by simp [State.setThread, hg.1], rfl⟩)) rfl rfl rfl rfl

theorem Linked.finiDependency (hs : Linked st) (hg : (st.entities e).phase = .parked) :
    Linked (st.finiDependency e) :=
  hs.setPhase (by simp [hg]) (hs.not_at (.inl hg)) (.inr (.inl ⟨rfl, by simp [hg], rfl⟩)) rfl rfl rfl rfl

theorem Linked.finiDone (hs : Linked st) (hg : (st.entities e).phase = .killing) :
    Linked (st.finiDone e) :=
  hs.setPhase (by simp [hg]) (hs.not_at (.inr (.inl hg))) (.inl rfl) rfl rfl rfl rfl

theorem Linked.take (hs : Linked st) (hp : st.pipeline.Placed)
    (hg : st.threads s = .taking e j) : Linked (st.take s e j) := by
  have hfront : (st.threads s).front = some (e, j) := by
    rw [hg]
    rfl
  have hentity := entity_of_front hfront
  obtain ⟨rest, hq⟩ := hs.front hfront
  have hunrun := fun k => @Linked.no_unrun _ hs hp s e k hentity
  have hnodup := hp.queue_nodup e
  have hqueued := hp.queued
  have hheld := hp.held
  have hin := fun s j a => @inHand_of_held (st.threads s) j a
  have hfe := fun s e j => @entity_of_front (st.threads s) e j
  obtain ⟨held, at_entity, at_front, listed, ended, absent, owner, queued, made, killed, last⟩ := hs
  simp only [pipeline, hq, List.nodup_cons] at hnodup hqueued hheld
  have hat := at_entity s e hentity
  have hsched := queued e j (by simp [hq])
  have hj := (hqueued e j).mp (by simp [hq])
  have hmem : ∀ i ∈ rest, i ∈ (st.entities e).queue := by
    rw [hq]
    exact fun i => List.mem_cons_of_mem j
  have hother : ∀ s', (st.threads s').entity = some e → s' = s := by
    intro s' he
    exact (at_entity s' e he).1.symm.trans hat.1
  simp only [State.take, State.setThread, State.setJob, State.setEntity, hq, List.tail_cons]
  constructor <;> dsimp only
  case at_front =>
    intro i e' j' hi
    by_cases his : i = s
    · subst his
      rw [Function.update_self] at hi
      cases hi
    · rw [Function.update_of_ne his] at hi
      have hne : e' ≠ e := fun heq => his (hother i (heq ▸ entity_of_front hi))
      rw [Function.update_of_ne hne]
      exact at_front i e' j' hi
  case last =>
    intro i k c hk hc
    have hsame : ∀ (a : Option Errno) x, (Function.update st.jobs j
        { st.jobs j with error := a, stage := .popped } x).entity = (st.jobs x).entity := by
      grind -linarith
    rw [hsame]
    by_cases hi : i = s
    · subst hi
      rw [Function.update_self] at hk
      cases hk
      rw [hj.2, Function.update_self]
      exact .inr ⟨rfl, hat.1⟩
    · rw [Function.update_of_ne hi] at hk
      have hne : (st.jobs k).entity ≠ e := by
        intro heq
        have hfalse := hunrun k heq
        rw [(held i k c hk).1, hc] at hfalse
        cases hfalse
      rw [Function.update_of_ne hne]
      exact last i k c hk hc
  all_goals grind -linarith

theorem Linked.count (hs : Linked st) (hg : st.threads s = .popped j) :
    Linked (st.count s j) := by
  have h : Linked ((st.setJob j fun x => { x with stage := .counted }).setThread s (.counted j)) :=
    hs.advance (by rw [hg]; rfl) rfl rfl rfl (fun _ => rfl) fun _ => ⟨rfl, rfl, rfl⟩
  exact h.of_eq rfl rfl rfl rfl rfl rfl

theorem Linked.jobBegin (hs : Linked st) (hg : st.threads s = .counted j) :
    Linked (st.jobBegin s j) := by
  have h : Linked ((st.setJob j fun x => { x with stage := .begun }).setThread s (.begun j)) :=
    hs.advance (by rw [hg]; rfl) rfl rfl rfl (fun _ => rfl) fun _ => ⟨rfl, rfl, rfl⟩
  exact h.of_eq rfl rfl rfl rfl rfl rfl

theorem Linked.runJob (hs : Linked st) (lost : Bool) (fence : Option Bool)
    (hg : st.threads s = .begun j) : Linked (st.runJob s j lost fence) := by
  let error := if lost then some .ecanceled else (st.jobs j).error
  have h : Linked ((st.setJob j fun x =>
      { x with error := error, hw := if error.isSome then none else fence, stage := .ran }).setThread
        s (.ran j)) :=
    hs.advance (by rw [hg]; rfl) rfl rfl rfl (fun _ => rfl) fun _ => ⟨rfl, rfl, rfl⟩
  exact h.of_eq rfl rfl rfl rfl rfl rfl

theorem Linked.post (hs : Linked st) (hg : st.threads s = .ran j) : Linked (st.post s j) :=
  (hs.fenceScheduled j).advance (a := .ran) (by simp [State.fenceScheduled, State.setJob, hg]; rfl)
    rfl rfl rfl (fun h => by cases h) fun _ => ⟨rfl, rfl, rfl⟩

/-- A job that no thread holds has finished, or been freed. -/
theorem Linked.restage (hs : Linked st) {f : Job → Job}
    (hstage : (st.jobs j).stage ≠ .unborn ∧ (st.jobs j).stage ≠ .made)
    (hheld : ∀ s a, (st.threads s).held ≠ some (j, a))
    (hf : ∀ x, (f x).entity = x.entity ∧ (f x).sched = x.sched) : Linked (st.setJob j f) := by
  apply hs.stages
  case ht => exact fun s => .refl _
  case hjob =>
    simp only [State.setJob]
    grind -linarith
  all_goals rfl

theorem Linked.not_held (hs : Linked st) {a : Stage} (ha : (st.jobs j).stage = a)
    (hin : a.inHand = false) (s : ℕ) (b : Stage) : (st.threads s).held ≠ some (j, b) := by
  intro h
  rw [← ha, (hs.held s j b h).1, inHand_of_held h] at hin
  cases hin

theorem Linked.processJob (hs : Linked st)
    (hstage : (st.jobs j).stage ≠ .unborn ∧ (st.jobs j).stage ≠ .made)
    (hheld : ∀ s a, (st.threads s).held ≠ some (j, a)) : Linked (st.processJob j) := by
  have h : Linked (st.setJob j fun x =>
      { x with finished := true, attached := false, stage := .finished }) :=
    hs.restage hstage hheld fun _ => ⟨rfl, rfl⟩
  have h' := h.setThread (s := (st.jobs j).sched) (keeps_woken _)
  exact h'.of_eq rfl rfl rfl rfl rfl rfl

theorem Linked.attach (hs : Linked st) (hg : st.threads s = .posted j) :
    Linked (st.attach s j) := by
  have hheld : (st.threads s).held = some (j, .posted) := by
    rw [hg]
    rfl
  obtain ⟨hstage, hsched⟩ := hs.held s j _ hheld
  have hborn : (st.jobs j).stage ≠ .unborn ∧ (st.jobs j).stage ≠ .made := by simp [hstage]
  have hcheck := hs.setThread (keeps_check (st.threads s))
  have hfree : ∀ i a, ((st.setThread s .check).threads i).held ≠ some (j, a) := by
    intro i a
    by_cases hi : i = s
    · subst hi
      simp [State.setThread, Thread.held]
    · have hsame : (st.setThread s .check).threads i = st.threads i := Function.update_of_ne hi ..
      rw [hsame]
      intro hj
      exact hi ((hs.held i j a hj).2.symm.trans hsched)
  unfold State.attach
  split
  · have h : Linked ((st.setThread s .check).setJob j fun x =>
        { x with attached := true, stage := .attached }) :=
      hcheck.restage hborn hfree fun _ => ⟨rfl, rfl⟩
    exact h
  · have h := (hcheck.processJob hborn hfree).setThread (s := s) (keeps_check _)
    apply h.of_eq
    case ht =>
      simp only [State.setThread, State.processJob, State.wake, State.setJob]
      funext i
      grind -linarith
    all_goals rfl

theorem Linked.jobFinish (hs : Linked st) (hstage : (st.jobs j).stage = .finished) :
    Linked (st.jobFinish j) := by
  have h : Linked (st.setJob j fun x => { x with freed := x.freed + 1, stage := .freed }) :=
    hs.restage (by simp [hstage]) (hs.not_held hstage rfl) fun _ => ⟨rfl, rfl⟩
  exact h.of_eq rfl rfl rfl rfl rfl rfl

theorem Linked.killJobsCb (hs : Linked st)
    (hstage : (st.jobs j).stage = .queued ∨ (st.jobs j).stage = .dying) :
    Linked (st.killJobsCb j) := by
  cases hstage with
  | inl h => exact hs.restage (by simp [h]) (hs.not_held h rfl) fun _ => ⟨rfl, rfl⟩
  | inr h => exact hs.restage (by simp [h]) (hs.not_held h rfl) fun _ => ⟨rfl, rfl⟩

/-- The first job leaves the queue of an entity that is at its end. -/
theorem Linked.unqueue (hs : Linked st) (hg : (st.entities e).phase = .killing)
    {killed : ℕ → List ℕ} (hk : ∀ i, i ≠ e → killed i = st.killed i) :
    Linked { st.setEntity e fun x => { x with queue := x.queue.tail } with killed := killed } := by
  have hat := hs.not_at (.inr (.inl hg))
  have htail : ∀ i ∈ (st.entities e).queue.tail, i ∈ (st.entities e).queue :=
    fun _ => List.mem_of_mem_tail
  have hfe := fun s e j => @entity_of_front (st.threads s) e j
  obtain ⟨held, at_entity, at_front, listed, ended, absent, owner, queued, made, killed, last⟩ := hs
  simp only [State.setEntity]
  constructor <;> dsimp only
  all_goals grind -linarith

theorem Linked.killJob (hs : Linked st) (hstage : (st.jobs j).stage = .queued)
    (hg : (st.entities e).phase = .killing) : Linked (st.killJob e j) := by
  have hun : Linked { st.setEntity e fun x => { x with queue := x.queue.tail } with
      killed := Function.update st.killed e (st.killed e ++ [j]) } :=
    hs.unqueue hg fun i hi => Function.update_of_ne hi ..
  have herr := (hun.fenceScheduled j).setJob (j := j)
    (f := fun x => { x with error := some (.other 3) }) fun _ => ⟨rfl, rfl, rfl⟩
  have hqueued : ((((({ st.setEntity e fun x => { x with queue := x.queue.tail } with
      killed := Function.update st.killed e (st.killed e ++ [j]) } : State).fenceScheduled j).setJob
      j fun x => { x with error := some (.other 3) }).jobs j).stage) = .queued := by
    simp [State.setJob, State.fenceScheduled, State.setEntity, hstage]
  unfold State.killJob
  dsimp only
  split
  · exact herr.killJobsCb (.inl hqueued)
  · split
    · exact herr.killJobsCb (.inl hqueued)
    · exact herr.restage (by simp [hqueued]) (herr.not_held hqueued rfl) fun _ => ⟨rfl, rfl⟩

/-- A reset only touches jobs whose callback is on a fence of the hardware. -/
theorem Linked.reset (hs : Linked st) (hf : Flagged st) (s : ℕ) : Linked (st.reset s) := by
  apply hs.stages
  case hjob =>
    intro j
    have hattached := (hf j).attached
    simp only [State.reset, State.setThread]
    split
    · next h =>
      simp only [Bool.and_eq_true] at h
      rw [h.2.1] at hattached
      have hstage := of_decide_eq_true hattached.symm
      exact ⟨rfl, rfl, .inr ⟨by simp [hstage], by simp [hstage], hs.not_held hstage rfl⟩⟩
    · exact ⟨rfl, rfl, .inl rfl⟩
  case ht => exact keeps_setThread (keeps_check _)
  all_goals rfl

/-- What an entity waits for is not linked. -/
theorem Linked.setDependency (hs : Linked st) (e : ℕ) (dependency : Option Fence)
    (cb : Option (Fence × Bool)) :
    Linked (st.setEntity e fun x => { x with dependency := dependency, cb := cb }) :=
  hs.setEntity fun _ => ⟨rfl, rfl, rfl, rfl, rfl, rfl⟩

theorem Linked.entityWakeup (hs : Linked st) (e : ℕ) : Linked (st.entityWakeup e) :=
  (hs.setDependency e none none).wakeup _

theorem Linked.pushWakeup (hs : Linked st) (e : ℕ) : Linked (st.pushWakeup e) :=
  (hs.wakeup _).abandon

/-- The thread goes on to a job of the entity it has selected. -/
theorem Linked.selected (hs : Linked st) {rest : List ℕ} (hg : st.threads s = .selected e)
    (hq : (st.entities e).queue = j :: rest) : Linked (st.setThread s (.depend e j)) := by
  obtain ⟨held, at_entity, at_front, listed, ended, absent, owner, queued, made, killed, last⟩ := hs
  have hat := at_entity s e (by rw [hg]; rfl)
  simp only [State.setThread]
  constructor <;> dsimp only
  all_goals grind -linarith

theorem Linked.scan (hs : Linked st) {p : ℕ} {woken : Bool} (hg : st.threads s = .scan p woken) :
    Linked (st.scan s p woken) := by
  unfold State.scan RunQueue.selectEntity
  cases hpick : (st.rqs ⟨s, p⟩).pick st.isReady with
  | none =>
    dsimp only
    cases p with
    | zero =>
      apply hs.setThread
      split <;> exact ⟨.inl rfl, .inl rfl, .inl rfl⟩
    | succ p => exact hs.setThread ⟨.inl rfl, .inl rfl, .inl rfl⟩
  | some e =>
    have hmem := (st.rqs ⟨s, p⟩).pick_mem hpick
    have hready := (st.rqs ⟨s, p⟩).pick_ready hpick
    simp only [isReady, Bool.and_eq_true, Bool.not_eq_true', List.isEmpty_eq_false_iff] at hready
    obtain ⟨held, at_entity, at_front, listed, ended, absent, owner, queued, made, killed, last⟩ :=
      hs
    have hlisted := (listed ⟨s, p⟩ e).mp hmem
    simp only [State.setThread]
    constructor <;> dsimp only
    all_goals grind -linarith

theorem Linked.dependency (hs : Linked st) (hg : st.threads s = .depend e j) :
    Linked (st.dependency s e j) := by
  have hjob : ∀ sync, Linked (st.setJob j fun x => { x with sync := sync }) :=
    fun sync => hs.setJob fun _ => ⟨rfl, rfl, rfl⟩
  have hkeeps : ∀ t : Thread, t.held = none → t.entity = some e → t.front = some (e, j) →
      Keeps (st.threads s) t := by
    intro t hheld hentity hfront
    rw [hg]
    exact ⟨.inl hheld, .inr hentity, .inr hfront⟩
  unfold State.dependency
  dsimp only
  split
  · next f _ =>
    exact ((hjob _).setDependency e (some f) _).setThread (hkeeps (.adding e j f) rfl rfl rfl)
  · split
    · exact (hjob _).setThread (hkeeps (.grab e j) rfl rfl rfl)
    · exact ((hjob _).setDependency e none _).setThread (hkeeps (.taking e j) rfl rfl rfl)

theorem Linked.vmidGrab (hs : Linked st) (fences : List Fence) (got : Bool)
    (hg : st.threads s = .grab e j) : Linked (st.vmidGrab s e j fences got) := by
  have hkeeps : Keeps (st.threads s) (.depend e j) := by
    rw [hg]
    exact ⟨.inl rfl, .inr rfl, .inr rfl⟩
  have hjob : Linked (st.setJob j fun x =>
      { x with sync := x.sync ++ fences, vmid := got, deps := x.deps ++ fences }) :=
    hs.setJob fun _ => ⟨rfl, rfl, rfl⟩
  exact hjob.setThread hkeeps

theorem Linked.addDependencyCb (hs : Linked st) {f : Fence} (hg : st.threads s = .adding e j f) :
    Linked (st.addDependencyCb s e j f) := by
  have hagain : Keeps (st.threads s) (.depend e j) := by
    rw [hg]
    exact ⟨.inl rfl, .inr rfl, .inr rfl⟩
  have hwait : Linked (st.waitFor s e j f) := by
    unfold waitFor
    split
    · exact hs.setThread hagain
    · exact (hs.setDependency e _ (some (f, true))).setThread (keeps_check _)
  unfold State.addDependencyCb
  split
  · exact hwait
  · next k _ =>
    have hdep := hs.setDependency e (some (.scheduled k)) (st.entities e).cb
    split
    · exact hs.setThread hagain
    · split
      · dsimp only
        split
        · exact hdep.setThread hagain
        · exact (hdep.setDependency e _ (some (.scheduled k, false))).setThread (keeps_check _)
      · exact hwait

end Gsgpu.Sched.State
