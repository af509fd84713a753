import Gsgpu.Sched.Refine

/-! Runs of the scheduler: what is linked stays linked, and the jobs go through the pipeline. -/
namespace Gsgpu.Sched

/-- On the way from the check that there is room to the job. -/
def Thread.looking : Thread → Bool
  | .scan _ _ | .selected _ | .depend _ _ | .grab _ _ | .adding _ _ _ | .taking _ _ => true
  | _ => false

namespace State

variable {st st' : State} {s e j : ℕ}

/-- What holds at any time. -/
structure Sound (st : State) : Prop where
  placed : st.pipeline.Placed
  ordered : st.pipeline.Ordered
  inOrder : st.pipeline.InOrder
  counted : st.pipeline.Counted
  flagged : Flagged st
  linked : Linked st
  room : ∀ s, (st.threads s).looking → (st.pipeline.flight s).card < (st.hwSubmissionLimit s).toNat

/-- The parts of `Sound` that are proved step by step. -/
structure Kept (st st' : State) : Prop where
  linked : Linked st'
  flagged : Flagged st'
  follows : Follows st st'

theorem Quiet.kept (h : Quiet st st') (hs : Sound st) (hl : Linked st') : Kept st st' :=
  ⟨hl, h.flagged hs.flagged, h.follows⟩

theorem Quiet.then_follows {st'' : State} (h : Quiet st st') (h' : Follows st' st'') :
    Follows st st'' := by
  unfold Follows at h' ⊢
  rw [h.pipeline] at h'
  exact h'

theorem selectRq_entity (st : State) (e : ℕ) :
    ((st.selectRq e).entities e).phase = (st.entities e).phase ∧
      ((st.selectRq e).entities e).pusher = (st.entities e).pusher := by
  obtain hsame | ⟨-, -, rq, -, heq⟩ := st.selectRq_cases e
  · rw [hsame]
    exact ⟨rfl, rfl⟩
  · rw [heq, rqRemoveEntity_eq]
    simp [setEntity]

theorem threads_selectRq (st : State) (e : ℕ) : (st.selectRq e).threads = st.threads := by
  obtain hsame | ⟨-, -, rq, -, heq⟩ := st.selectRq_cases e
  · rw [hsame]
  · rw [heq, rqRemoveEntity_eq]
    rfl

theorem Sound.ready (hs : Sound st) (h : (st.threads s).looking) :
    st.hwRqCount s < st.hwSubmissionLimit s := by
  rw [UInt32.lt_iff_toNat_lt]
  have hcount := hs.counted.toNat s
  simp only [pipeline] at hcount
  rw [hcount]
  exact hs.room s h

/-- A step keeps the parts linked, the flags those of the stages, and follows the pipeline. -/
theorem Moves.kept (hs : Sound st) {ev : Event} (h : Moves st ev st') : Kept st st' := by
  obtain ⟨hp, ho, -, -, hf, hl, -⟩ := id hs
  have hidle : ∀ {s : ℕ} (t : Thread), (st.threads s).held = none → t.held = none →
      Quiet st (st.setThread s t) := fun t hold ht => quiet_setThread (ht.trans hold.symm)
  cases h with
  | @create e rq rqList guilty hg hr =>
    have hquiet : Quiet st (st.create e rq rqList guilty) := quiet_setEntity (hl.absent e hg).symm
    exact hquiet.kept hs (hl.create rq rqList guilty hg)
  | @jobInit e deps vm hphase hpusher hdeps =>
    have hquiet := quiet_selectRq st e
    have hl' := hl.selectRq hf ⟨hphase, hpusher⟩
    have hp' := hquiet.pipeline ▸ hp
    have ho' := hquiet.pipeline ▸ ho
    obtain ⟨hphase', hpusher'⟩ := selectRq_entity st e
    exact ⟨hl'.makeJob hp' ho' deps vm ⟨hphase'.trans hphase, hpusher'.trans hpusher⟩,
      flagged_makeJob (hquiet.flagged hf) deps vm,
      hquiet.then_follows (follows_makeJob _ e deps vm)⟩
  | @initFails e hphase hpusher =>
    exact (quiet_selectRq st e).kept hs (hl.selectRq hf ⟨hphase, hpusher⟩)
  | @publish e j hg =>
    have hquiet : Quiet st (st.publish e j) := (quiet_setJob rfl).trans (quiet_setEntity rfl)
    exact hquiet.kept hs (hl.publish hg)
  | abandon hg => exact (quiet_setEntity rfl).kept hs hl.abandon
  | push hg => exact ⟨hl.pushJob hp hg, flagged_pushJob hf hl hg, follows_pushJob hl hg⟩
  | @enlist e hg => exact (quiet_enlist st e).kept hs (hl.enlist hg)
  | @pushWakeup e hg =>
    have hquiet : Quiet st (st.pushWakeup e) := (quiet_wakeup st _).trans (quiet_setEntity rfl)
    exact hquiet.kept hs (hl.pushWakeup e)
  | @setPriority e priority hphase hpriority =>
    exact (quiet_setPriority st e priority).kept hs (hl.setPriority priority hphase)
  | @stop e hphase =>
    have hquiet : Quiet st (st.stop e) := (quiet_setEntity rfl).trans (quiet_rqRemoveEntity _ _ e)
    exact hquiet.kept hs hl.stop
  | @finiRemove e hphase hpusher =>
    have hquiet : Quiet st (st.finiRemove e) :=
      (quiet_rqRemoveEntity st _ e).trans (quiet_setEntity rfl)
    exact hquiet.kept hs (hl.finiRemove ⟨hphase, hpusher⟩)
  | @finiPark e hphase hq => exact (quiet_finiPark st e hq).kept hs (hl.finiPark ⟨hphase, hq⟩)
  | finiDependency hphase => exact Quiet.kept (quiet_setEntity rfl) hs (hl.finiDependency hphase)
  | @kill e j rest hq hphase =>
    have hstage : (st.jobs j).stage = .queued :=
      ((hp.queued e j).mp (by simp [State.pipeline, hq])).1
    exact ⟨hl.killJob hstage hphase, flagged_killJob hf hp hq, follows_killJob hp hq⟩
  | finiDone hphase hq => exact Quiet.kept (quiet_setEntity rfl) hs (hl.finiDone hphase)
  | @room s hg hr =>
    exact (hidle (.scan (priorityMax - 1) false) (by rw [hg]; rfl) rfl).kept hs
      (hl.setThread ⟨.inl rfl, .inl rfl, .inl rfl⟩)
  | @full s hg hr =>
    exact (hidle .asleep (by rw [hg]; rfl) rfl).kept hs
      (hl.setThread ⟨.inl rfl, .inl rfl, .inl rfl⟩)
  | scan hg => exact (quiet_scan hg).kept hs (hl.scan hg)
  | @empty s e hg hq =>
    exact (hidle .check (by rw [hg]; rfl) rfl).kept hs (hl.setThread (keeps_check _))
  | @selected s e j rest hg hq =>
    exact (hidle (.depend e j) (by rw [hg]; rfl) rfl).kept hs (hl.selected hg hq)
  | dependency hg => exact (quiet_dependency hg).kept hs (hl.dependency hg)
  | addDependencyCb hg => exact (quiet_addDependencyCb hg).kept hs (hl.addDependencyCb hg)
  | @take s e j hg =>
    have hroom := hs.ready (s := s) (by rw [hg]; rfl)
    exact ⟨hl.take hp hg, flagged_take hf hl hp hg, follows_take hl hp hg hroom⟩
  | count hg => exact ⟨hl.count hg, flagged_count hf hl hg, follows_count hl hg⟩
  | jobBegin hg => exact ⟨hl.jobBegin hg, flagged_jobBegin hf hl hg, follows_jobBegin hl hg⟩
  | post hg => exact ⟨hl.post hg, flagged_post hf hl hg, follows_post hl hg⟩
  | attach hg => exact ⟨hl.attach hg, flagged_attach hf hl hg, follows_attach hl hg⟩
  | @vmidGrab s e j fences got hg hfences =>
    have hjob : Quiet st (st.setJob j fun x =>
        { x with sync := x.sync ++ fences, vmid := got, deps := x.deps ++ fences }) :=
      quiet_setJob rfl
    have hheld : (Thread.depend e j).held = (st.threads s).held := by
      rw [hg]
      rfl
    have hquiet : Quiet st (st.vmidGrab s e j fences got) := hjob.trans (quiet_setThread hheld)
    exact hquiet.kept hs (hl.vmidGrab fences got hg)
  | @runJob s j lost fence hg =>
    exact ⟨hl.runJob lost fence hg, flagged_runJob hf hl lost fence hg,
      follows_runJob hl lost fence hg⟩
  | @reset s hg => exact ⟨hl.reset hf s, flagged_reset hf s, follows_reset hf hp hg⟩
  | blame =>
    exact Quiet.kept (quiet_setEntity rfl) hs
      (hl.setEntity fun _ => ⟨rfl, rfl, rfl, rfl, rfl, rfl⟩)
  | hwSignal hg =>
    exact Quiet.kept (quiet_setJob rfl) hs (hl.setJob fun _ => ⟨rfl, rfl, rfl⟩)
  | @processCb j ha hw =>
    have hattached := (hf j).attached
    rw [ha] at hattached
    have hstage := of_decide_eq_true hattached.symm
    exact ⟨hl.processJob (by simp [hstage]) (hl.not_held hstage rfl),
      flagged_processJob hf (.inl hstage), follows_processJob hstage⟩
  | @depCb e f hg hfence =>
    have hquiet : Quiet st (st.entityWakeup e) := (quiet_setEntity rfl).trans (quiet_wakeup _ _)
    exact hquiet.kept hs (hl.entityWakeup e)
  | @finish j hfin hm =>
    have hstage : (st.jobs j).stage = .finished := by
      have hon := ((hp.mirrored _ j).mp hm).1
      rw [(hf j).finished] at hfin
      cases hst : (st.jobs j).stage <;>
        simp [State.pipeline, hst, Stage.onMirror, Stage.isFinished] at hon hfin ⊢
    exact ⟨hl.jobFinish hstage, flagged_jobFinish hf hstage, follows_jobFinish hstage⟩
  | @killCb j k hg hk =>
    have hkill := (hf j).killWait
    rw [hg] at hkill
    have hstage : (st.jobs j).stage = .dying := of_decide_eq_true hkill.symm
    exact ⟨hl.killJobsCb (.inr hstage), flagged_killJobsCb hf hstage, follows_killJobsCb hstage⟩
  | otherSignal =>
    refine Quiet.kept ?_ hs (hl.of_eq rfl rfl rfl rfl rfl rfl)
    constructor <;> intros <;> rfl

/-- What happens to a thread that does not take the step itself. -/
def Aside (st st' : State) (i : ℕ) : Prop :=
  st'.threads i = st.threads i ∨ st'.threads i = (st.threads i).woken

theorem aside_setThread {t : Thread} {i : ℕ} (h : i ≠ s) : Aside st (st.setThread s t) i :=
  .inl (setThread_of_ne st t h)

theorem aside_wakeup (st : State) (s i : ℕ) : Aside st (st.wakeup s) i := by
  rw [wakeup_eq]
  by_cases hi : i = s
  · subst hi
    unfold Aside
    rw [setThread_self]
    split
    · exact .inr rfl
    · exact .inl rfl
  · exact aside_setThread hi

theorem aside_processJob (st : State) (j i : ℕ) : Aside st (st.processJob j) i := by
  unfold processJob wake
  by_cases hi : i = (st.jobs j).sched
  · subst hi
    exact .inr (setThread_self ..)
  · exact .inl (setThread_of_ne _ _ hi)

theorem aside_scan {p : ℕ} {woken : Bool} {i : ℕ} (h : i ≠ s) :
    Aside st (st.scan s p woken) i := by
  unfold scan
  split
  · exact .inl (Function.update_of_ne h ..)
  · split <;> exact aside_setThread h

theorem aside_dependency {i : ℕ} (h : i ≠ s) : Aside st (st.dependency s e j) i := by
  unfold dependency
  dsimp only
  split
  · exact .inl (Function.update_of_ne h ..)
  · split <;> exact .inl (Function.update_of_ne h ..)

theorem aside_addDependencyCb {f : Fence} {i : ℕ} (h : i ≠ s) :
    Aside st (st.addDependencyCb s e j f) i := by
  have hwait : Aside st (st.waitFor s e j f) i := by
    unfold waitFor
    split <;> exact .inl (Function.update_of_ne h ..)
  unfold addDependencyCb
  split
  · exact hwait
  · split
    · exact aside_setThread h
    · split
      · dsimp only
        split <;> exact .inl (Function.update_of_ne h ..)
      · exact hwait

theorem aside_attach {i : ℕ} (h : i ≠ s) : Aside st (st.attach s j) i := by
  unfold attach
  split
  · exact .inl (Function.update_of_ne h ..)
  · have hp := aside_processJob st j i
    unfold Aside at hp ⊢
    rwa [setThread_of_ne _ _ h]

end State

/-- The thread that goes on, if the step is one of a thread or of one that is parked. -/
def Event.mover (st : State) : Event → Option ℕ
  | .thread s => some s
  | .vmidGrab s _ _ => some s
  | .runJob s _ _ => some s
  | .reset s => some s
  | .finiPark e => some (st.entities e).rq.sched
  | _ => none

namespace State

theorem Moves.aside {ev : Event} (h : Moves st ev st') {i : ℕ} (hi : ev.mover st ≠ some i) :
    Aside st st' i := by
  have hne : ∀ {s}, ev.mover st = some s → i ≠ s := fun h heq => hi (heq ▸ h)
  cases h with
  | initFails hphase hpusher =>
    rename_i e
    exact .inl (congrFun (threads_selectRq st e) i)
  | jobInit hphase hpusher hdeps =>
    rename_i e deps vm
    exact .inl (congrFun (threads_selectRq st e) i)
  | @enlist e hg =>
    unfold State.enlist
    split
    · exact .inl rfl
    · rw [rqAddEntity_eq]
      exact .inl rfl
  | setPriority | stop | finiRemove =>
    unfold Aside
    simp [State.setPriority, State.stop, State.finiRemove, rqAddEntity_eq, rqRemoveEntity_eq, setEntity]
  | @finiPark e hphase hq =>
    unfold State.finiPark
    split
    · exact .inl rfl
    · exact aside_setThread (hne rfl)
  | pushWakeup hg => exact aside_wakeup st _ i
  | depCb hg hf =>
    rename_i e f
    exact aside_wakeup (st.setEntity e fun x => { x with dependency := none, cb := none }) _ i
  | @kill e j rest hq hphase =>
    unfold State.killJob
    dsimp only
    split
    · exact .inl rfl
    · split <;> exact .inl rfl
  | processCb ha hw => exact aside_processJob st _ i
  | scan hg => exact aside_scan (hne rfl)
  | dependency hg => exact aside_dependency (hne rfl)
  | addDependencyCb hg => exact aside_addDependencyCb (hne rfl)
  | attach hg => exact aside_attach (hne rfl)
  | room | full | empty | selected | take | count | jobBegin | post | vmidGrab | runJob | reset =>
    exact .inl (Function.update_of_ne (hne rfl) ..)
  | _ => exact .inl rfl

theorem looking_woken (t : Thread) : t.woken.looking = t.looking := by cases t <;> rfl

/-- A thread that looks for a job has looked for one before, or there was room when it started. -/
theorem Moves.looking {ev : Event} (h : Moves st ev st') {i : ℕ} (hi : (st'.threads i).looking) :
    (st.threads i).looking ∨ st.ready i := by
  by_cases hev : ev.mover st = some i
  · cases h with
    | room hg hr =>
      cases hev
      exact .inr hr
    | scan hg | empty hg | selected hg | dependency hg | addDependencyCb hg | take hg
    | vmidGrab hg =>
      cases hev
      rw [hg]
      exact .inl rfl
    | full | count | jobBegin | post | runJob | reset =>
      cases hev
      simp [setThread, State.count, State.jobBegin, State.post, State.runJob, State.reset,
        Thread.looking] at hi
    | attach =>
      cases hev
      unfold State.attach at hi
      split at hi <;> simp [setThread, Thread.looking] at hi
    | @finiPark e hphase hq =>
      cases hev
      unfold State.finiPark at hi
      split at hi
      · exact .inl hi
      · simp [setEntity, setThread, Thread.looking] at hi
    | _ => cases hev
  · cases h.aside hev with
    | inl hsame => exact .inl (hsame ▸ hi)
    | inr hwoken =>
      rw [hwoken, looking_woken] at hi
      exact .inl hi

/-- The jobs in flight only get more when the thread counts the one it holds. -/
theorem Follows.flight_le (hs : Sound st) (h : Follows st st') {i : ℕ}
    (hheld : (st'.threads i).held = none) :
    (st'.pipeline.flight i).card ≤ (st.pipeline.flight i).card := by
  cases h with
  | inl h => rw [h]
  | inr h =>
    have hp' := hs.placed.step h
    apply Finset.card_le_card
    intro j hj
    rw [Pipeline.mem_flight hp'] at hj
    have hnot : (st'.pipeline.stage j).inHand = false := by
      by_contra hin
      have hhand := (hp'.held i j).mpr ⟨by simpa using hin, hj.2⟩
      simp [pipeline, hheld] at hhand
    obtain ⟨hin, hsched⟩ := h.inFlight hs.placed hj.1 hnot
    exact (Pipeline.mem_flight hs.placed).mpr ⟨hin, hsched.trans hj.2⟩

theorem Follows.limit (h : Follows st st') : st'.hwSubmissionLimit = st.hwSubmissionLimit := by
  cases h with
  | inl h => exact congrArg Pipeline.hwSubmissionLimit h
  | inr h => exact h.limit

theorem held_of_looking {t : Thread} (h : t.looking) : t.held = none := by
  cases t <;> first | rfl | cases h

theorem Sound.step (hs : Sound st) {ev : Event} (h : st.step ev = some st') : Sound st' := by
  have hm := step_moves h
  obtain ⟨hl, hf, hfollow⟩ := hm.kept hs
  have hpipe : st'.pipeline.Placed ∧ st'.pipeline.Ordered ∧ st'.pipeline.InOrder ∧
      st'.pipeline.Counted := by
    cases hfollow with
    | inl hsame =>
      rw [hsame]
      exact ⟨hs.placed, hs.ordered, hs.inOrder, hs.counted⟩
    | inr hstep =>
      exact ⟨hs.placed.step hstep, hs.ordered.step hs.placed hstep,
        hs.inOrder.step hs.ordered hs.placed hstep, hs.counted.step hs.placed hstep⟩
  refine ⟨hpipe.1, hpipe.2.1, hpipe.2.2.1, hpipe.2.2.2, hf, hl, fun i hi => ?_⟩
  have hle := hfollow.flight_le hs (held_of_looking hi)
  rw [hfollow.limit]
  apply hle.trans_lt
  cases hm.looking hi with
  | inl hlook => exact hs.room i hlook
  | inr hready =>
    have hcount := hs.counted.toNat i
    simp only [State.ready, decide_eq_true_eq, UInt32.lt_iff_toNat_lt] at hready
    simp only [pipeline] at hcount
    rwa [hcount] at hready

/-- An entity is turned as if no job were made then. -/
theorem Sound.selectRq (hs : Sound st) (hphase : (st.entities e).phase = .live)
    (hpusher : (st.entities e).pusher = .idle) : Sound (st.selectRq e) := by
  have hfails : st.step (.initFails e) = some (st.selectRq e) := if_pos ⟨hphase, hpusher⟩
  exact hs.step hfails

theorem Sound.makeJob (hs : Sound st) (hphase : (st.entities e).phase = .live)
    (hpusher : (st.entities e).pusher = .idle) (deps : List Fence) (vm : Bool) :
    Kept st (st.makeJob e deps vm) :=
  ⟨hs.linked.makeJob hs.placed hs.ordered deps vm ⟨hphase, hpusher⟩,
    flagged_makeJob hs.flagged deps vm, follows_makeJob st e deps vm⟩

theorem start_sound (limit : ℕ → UInt32) : Sound (start limit) := by
  have hinit : (start limit).pipeline.Initial := by
    unfold Pipeline.Initial
    simp [pipeline, start, Thread.held]
  refine ⟨hinit.placed, hinit.ordered, hinit.inOrder, hinit.counted, fun j => ?_, ?_, fun i hi => ?_⟩
  · constructor <;> rfl
  · constructor <;> simp [start, Thread.held, Thread.entity, Thread.front, RunQueue.empty, Pusher.job]
  · cases hi

/-- The states that the scheduler reaches, by any order of steps that meet `good`. -/
abbrev Reached (limit : ℕ → UInt32) (good : State → Event → Prop) : State → Prop :=
  Transition.Reach (· = start limit) (fun st ev st' => st.step ev = some st') good

/-- The states that the pipeline reaches. -/
abbrev PipelineReached (limit : ℕ → UInt32) : Pipeline → Prop :=
  Transition.Reach (· = (start limit).pipeline) (fun p (_ : Unit) p' => Pipeline.Step p p')
    fun _ _ => True

theorem Reached.sound {limit : ℕ → UInt32} {good : State → Event → Prop}
    (h : Reached limit good st) : Sound st := by
  apply Transition.Reach.invariant _ _ h
  · intro st hst
    rw [hst]
    exact start_sound limit
  · intro st ev st' hs _ hstep
    exact hs.step hstep

/-- What a run of steps leads to is reached. -/
theorem reached_of_run {α : Type} {limit : ℕ → UInt32} {good : State → Event → Prop}
    {es : List Event} {f : State → α} {a : α} (hgood : ∀ st, ∀ e ∈ es, good st e)
    (h : (es.foldlM State.step (start limit)).map f = some a) :
    ∃ st, Reached limit good st ∧ f st = a := by
  obtain ⟨st, hst, ha⟩ := Option.map_eq_some_iff.mp h
  exact ⟨st, Transition.Reach.foldlM (.start rfl) hgood hst, ha⟩

/-- The scheduler does to the jobs what the pipeline says. -/
theorem Reached.refines_pipeline {limit : ℕ → UInt32} {good : State → Event → Prop}
    (h : Reached limit good st) : PipelineReached limit st.pipeline := by
  induction h with
  | start h => exact .start (congrArg State.pipeline h)
  | next hr hg hstep ih =>
    cases ((step_moves hstep).kept (Reached.sound hr)).follows with
    | inl hsame =>
      rw [hsame]
      exact ih
    | inr h => exact .next (e := ()) ih trivial h

/-- One job, from its making to its end. -/
def singleRun : List Event :=
  [.create 0 ⟨0, 2⟩ [] none, .jobInit 0 [] false, .publish 0, .push 0, .enlist 0, .pushWakeup 0] ++
    List.replicate 9 (.thread 0) ++
  [.runJob 0 false (some false), .thread 0, .thread 0, .hwSignal 0, .processCb 0, .finish 0]

theorem Reached.refines_pipeline_single : ∃ p, PipelineReached (fun _ => 1) p ∧ p.stage 0 = .freed := by
  have hrun : (singleRun.foldlM State.step (start fun _ => 1)).map
      (fun st => (st.jobs 0).stage) = some .freed := by decide +kernel
  obtain ⟨st, hreach, hst⟩ := reached_of_run (fun _ _ _ => trivial) hrun
  exact ⟨st.pipeline, Reached.refines_pipeline hreach, hst⟩

end State

end Gsgpu.Sched
