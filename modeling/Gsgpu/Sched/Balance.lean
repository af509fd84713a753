import Gsgpu.Sched.Runs
import Mathlib.Data.List.Pairwise

/-! Load balancing: an entity goes to another scheduler only when the last of its jobs is through. -/
namespace Gsgpu.Sched

namespace Pipeline

variable {p p' : Pipeline}

/-- A job stays where it was made for, and what is over stays so. -/
structure Keeps (p p' : Pipeline) (j : ℕ) : Prop where
  born : p'.stage j ≠ .unborn
  entity : p'.entity j = p.entity j
  sched : p'.sched j = p.sched j
  scheduled : (p.stage j).isScheduled → (p'.stage j).isScheduled
  finished : (p.stage j).isFinished → (p'.stage j).isFinished

theorem Step.keeps (h : Step p p') (hi : Placed p) {j : ℕ} (hj : p.stage j ≠ .unborn) :
    Keeps p p' j := by
  have hfresh := (hi.fresh p.next).mp le_rfl
  constructor
  all_goals
    cases h <;> simp only [setStage] <;> grind [Stage.isScheduled, Stage.isFinished]

end Pipeline

namespace State

attribute [local grind =] Function.update_apply

variable {st st' : State} {s e j : ℕ}

theorem Follows.keeps (h : Follows st st') (hs : Sound st) (hj : (st.jobs j).stage ≠ .unborn) :
    Pipeline.Keeps st.pipeline st'.pipeline j := by
  cases h with
  | inl hsame => 
    rw [hsame]
    exact ⟨hj, rfl, rfl, id, id⟩
  | inr hstep => exact hstep.keeps hs.placed hj

/-- The jobs of an entity that were taken, in order. -/
def takenOf (st : State) (e : ℕ) : List ℕ :=
  Pipeline.ofEntity (fun j => (st.jobs j).entity) e st.taken

/-- A job of the same entity, not older than `k` and on the same scheduler, that has finished. -/
def Through (st : State) (e k m : ℕ) : Prop :=
  m ∈ st.pushed e ∧ k ≤ m ∧ (st.jobs m).sched = (st.jobs k).sched ∧ (st.jobs m).finished

/-- An entity has turned to another scheduler only behind a job that is through. -/
structure Settled (st : State) : Prop where
  last : ∀ e, (st.entities e).phase ≠ .gone → (st.entities e).lastScheduled = (st.takenOf e).getLast?
  turned : ∀ e, ∀ k ∈ st.pushed e, (∃ m, Through st e k m) ∨
    ∀ m ∈ st.pushed e, k ≤ m → (st.jobs m).sched = (st.entities e).rq.sched
  apart : ∀ e, ∀ k ∈ st.pushed e, ∀ j ∈ st.pushed e, k < j →
    (st.jobs k).sched = (st.jobs j).sched ∨ ∃ m < j, Through st e k m

theorem born_of_pushed (hs : Sound st) (hj : j ∈ st.pushed e) :
    (st.jobs j).stage ≠ .unborn ∧ (st.jobs j).entity = e := by
  obtain ⟨howner, hstage⟩ := (hs.ordered.mem_pushed hs.placed e j).mp hj
  simp only [pipeline] at howner hstage
  refine ⟨fun h => ?_, howner⟩
  simp [h, Stage.wasTaken, Stage.wasKilled, Stage.beforeRun, Stage.hasRun] at hstage

/-- A job that is through stays so. -/
theorem Through.step (hs : Sound st) (hk : Kept st st')
    (hpushed : ∀ j ∈ st.pushed e, j ∈ st'.pushed e) {k m : ℕ} (hmem : k ∈ st.pushed e)
    (h : Through st e k m) :
    Through st' e k m := by
  obtain ⟨hm, hle, hsched, hfin⟩ := h
  have hkeeps := hk.follows.keeps hs (born_of_pushed hs hm).1
  have hkeeps' := hk.follows.keeps hs (born_of_pushed hs hmem).1
  refine ⟨hpushed m hm, hle, hkeeps.sched.trans (hsched.trans hkeeps'.sched.symm), ?_⟩
  rw [(hs.flagged m).finished] at hfin
  rw [(hk.flagged m).finished]
  exact hkeeps.finished hfin

theorem Kept.takenOf (hk : Kept st st') (hs : Sound st) (htaken : st'.taken = st.taken) (e : ℕ) :
    st'.takenOf e = st.takenOf e := by
  unfold State.takenOf Pipeline.ofEntity
  rw [htaken]
  apply List.filter_congr
  intro j hj
  have hborn : (st.jobs j).stage ≠ .unborn := by
    intro heq
    have hstage := (hs.ordered.taken j).mp hj
    simp [pipeline, heq, Stage.wasTaken, Stage.beforeRun, Stage.hasRun] at hstage
  have hentity : (st'.jobs j).entity = (st.jobs j).entity := (hk.follows.keeps hs hborn).entity
  simp only [hentity]

/-- Steps that push no job, take none and turn no entity that has jobs. -/
theorem Settled.frame (hi : Settled st) (hs : Sound st) (hk : Kept st st')
    (htaken : st'.taken = st.taken) (hpushed : st'.pushed = st.pushed)
    (hrq : ∀ e, (st'.entities e).rq.sched = (st.entities e).rq.sched ∨ st.pushed e = [])
    (hlast : ∀ e, (st'.entities e).phase ≠ .gone → (st.entities e).phase ≠ .gone ∧
      (st'.entities e).lastScheduled = (st.entities e).lastScheduled) : Settled st' := by
  have hthrough : ∀ e k m, k ∈ st.pushed e → Through st e k m → Through st' e k m := by
    intro e k m
    apply Through.step hs hk
    simp [hpushed]
  have hsched : ∀ e, ∀ j ∈ st.pushed e, (st'.jobs j).sched = (st.jobs j).sched := fun e j hj =>
    (hk.follows.keeps hs (born_of_pushed hs hj).1).sched
  constructor <;> try rw [hpushed]
  case last =>
    intro e he
    rw [hk.takenOf hs htaken, (hlast e he).2]
    exact hi.last e (hlast e he).1
  case turned =>
    intro e k hmem
    cases hi.turned e k hmem with
    | inl h =>
      obtain ⟨m, hm⟩ := h
      exact .inl ⟨m, hthrough e k m hmem hm⟩
    | inr h =>
      refine .inr fun m hm hle => ?_
      have hsame := (hrq e).resolve_right (List.ne_nil_of_mem hmem)
      rw [hsched e m hm, hsame]
      exact h m hm hle
  case apart =>
    intro e k hk' j hj hlt
    rw [hsched e k hk', hsched e j hj]
    obtain h | ⟨m, hmj, hm⟩ := hi.apart e k hk' j hj hlt
    · exact .inl h
    · exact .inr ⟨m, hmj, hthrough e k m hk' hm⟩

/-- The last job that was taken from an entity without jobs is the last that was pushed. -/
theorem last_of_empty (hs : Sound st) (hq : (st.entities e).queue = [])
    (hphase : (st.entities e).phase = .live) : st.pushed e = st.takenOf e := by
  have hkilled : st.killed e = [] := by
    by_contra hne
    cases hs.linked.killed e hne with
    | inl h | inr h => simp [hphase] at h
  have hpushed := hs.ordered.pushed e
  simp only [pipeline, hq, hkilled, List.append_nil] at hpushed
  exact hpushed

theorem Settled.selectRq (hi : Settled st) (hs : Sound st) (hphase : (st.entities e).phase = .live) :
    Settled (st.selectRq e) := by
  obtain hsame | ⟨hq, hfin, rq, -, heq⟩ := st.selectRq_cases e
  · rw [hsame]
    exact hi
  · obtain ⟨last, turned, apart⟩ := hi
    have hpushed := last_of_empty hs hq hphase
    have hthrough : ∀ k ∈ st.pushed e, ∃ m, Through st e k m := by
      intro k hk
      cases turned e k hk with
      | inl h => exact h
      | inr h =>
        have hne := List.ne_nil_of_mem hk
        have hlast := last e (by simp [hphase])
        rw [← hpushed, List.getLast?_eq_some_getLast hne] at hlast
        have hle : k ≤ (st.pushed e).getLast hne :=
          ((hs.ordered.sorted e).imp Nat.le_of_lt).rel_getLast hk
        have hmem := List.getLast_mem hne
        exact ⟨_, hmem, hle, (h _ hmem hle).trans (h k hk le_rfl).symm, hfin _ hlast⟩
    rw [heq, rqRemoveEntity_eq]
    constructor
    case last =>
      intro i hi
      change _ = (st.takenOf i).getLast?
      by_cases hie : i = e
      · subst hie
        simpa [State.setEntity] using last i (by simp [hphase])
      · simp only [State.setEntity, Function.update_of_ne hie] at hi ⊢
        exact last i hi
    case turned =>
      intro i k hk
      by_cases hie : i = e
      · subst hie
        exact .inl (hthrough k hk)
      · simp only [State.setEntity, Function.update_of_ne hie]
        exact turned i k hk
    case apart => exact apart

theorem Settled.pushJob (hi : Settled st) (hs : Sound st) (hk : Kept st (st.pushJob e j))
    (hg : (st.entities e).pusher = .published j) : Settled (st.pushJob e j) := by
  obtain ⟨hstage, howner, hsched, hlt⟩ := hs.linked.made e j (by rw [hg]; rfl)
  have hmem : ∀ i k, k ∈ (st.pushJob e j).pushed i ↔ k ∈ st.pushed i ∨ i = e ∧ k = j := by
    intro i k
    simp only [State.pushJob, Function.update_apply]
    grind
  have hthrough : ∀ i k m, k ∈ st.pushed i → Through st i k m → Through (st.pushJob e j) i k m := by
    intro i k m
    apply Through.step hs hk
    intro x hx
    exact (hmem i x).mpr (.inl hx)
  have hsched' : ∀ k, ((st.pushJob e j).jobs k).sched = (st.jobs k).sched := by
    intro k
    simp only [State.pushJob, State.setEntity, State.setJob]
    grind
  have hentity : ∀ i, ((st.pushJob e j).entities i).rq = (st.entities i).rq ∧
      ((st.pushJob e j).entities i).phase = (st.entities i).phase ∧
        ((st.pushJob e j).entities i).lastScheduled = (st.entities i).lastScheduled := by
    intro i
    simp only [State.pushJob, State.setEntity, State.setJob]
    grind
  constructor
  case last =>
    intro i hi'
    rw [(hentity i).2.2, hk.takenOf hs rfl]
    exact hi.last i ((hentity i).2.1 ▸ hi')
  case turned =>
    intro i k hk'
    simp only [hmem, hsched', (hentity i).1] at hk' ⊢
    cases hk' with
    | inl hold =>
      cases hi.turned i k hold with
      | inl h =>
        obtain ⟨m, hm⟩ := h
        exact .inl ⟨m, hthrough i k m hold hm⟩
      | inr h =>
        refine .inr fun m hm hle => ?_
        cases hm with
        | inl hm => exact h m hm hle
        | inr hm =>
          obtain ⟨rfl, rfl⟩ := hm
          exact hsched
    | inr hnew =>
      obtain ⟨rfl, rfl⟩ := hnew
      refine .inr fun m hm hle => ?_
      cases hm with
      | inl hm => exact absurd (hlt m hm) (Nat.not_lt.mpr hle)
      | inr hm => exact hm.2 ▸ hsched
  case apart =>
    intro i k hk' i' hi' hlt'
    simp only [hmem, hsched'] at hk' hi' ⊢
    cases hk' with
    | inr hnew =>
      obtain ⟨rfl, rfl⟩ := hnew
      cases hi' with
      | inl h => exact absurd (hlt i' h) (Nat.not_lt.mpr hlt'.le)
      | inr h => exact absurd h.2 hlt'.ne'
    | inl hold =>
      cases hi' with
      | inl h =>
        obtain h | ⟨m, hmi, hm⟩ := hi.apart i k hold i' h hlt'
        · exact .inl h
        · exact .inr ⟨m, hmi, hthrough i k m hold hm⟩
      | inr hnew =>
        obtain ⟨rfl, rfl⟩ := hnew
        cases hi.turned i k hold with
        | inl h =>
          obtain ⟨m, hm⟩ := h
          exact .inr ⟨m, hlt m hm.1, hthrough i k m hold hm⟩
        | inr h => exact .inl ((h k hold le_rfl).trans hsched.symm)

theorem Settled.take (hi : Settled st) (hs : Sound st) (hg : st.threads s = .taking e j) :
    Settled (st.take s e j) := by
  have hfront : (st.threads s).front = some (e, j) := by
    rw [hg]
    rfl
  obtain ⟨rest, hq⟩ := hs.linked.front hfront
  have howner := ((hs.placed.queued e j).mp (by simp [pipeline, hq])).2
  simp only [pipeline] at howner
  have hjobs : ∀ k, ((st.take s e j).jobs k).entity = (st.jobs k).entity ∧
      ((st.take s e j).jobs k).sched = (st.jobs k).sched ∧
        ((st.take s e j).jobs k).finished = (st.jobs k).finished := by
    intro k
    simp only [State.take, State.setThread, State.setEntity, State.setJob]
    grind
  have hentity : ∀ i, ((st.take s e j).entities i).rq = (st.entities i).rq ∧
      ((st.take s e j).entities i).phase = (st.entities i).phase ∧
        ((st.take s e j).entities i).lastScheduled =
          if i = e then some j else (st.entities i).lastScheduled := by
    intro i
    simp only [State.take, State.setThread, State.setEntity, State.setJob]
    grind
  obtain ⟨last, turned, apart⟩ := hi
  constructor
  case last =>
    intro i hi
    have htaken : (st.take s e j).takenOf i = st.takenOf i ++ if i = e then [j] else [] := by
      unfold takenOf
      simp only [hjobs]
      rw [show (st.take s e j).taken = st.taken ++ [j] from rfl, Pipeline.ofEntity_append]
      by_cases hie : i = e
      · rw [Pipeline.ofEntity_single (howner.trans hie.symm), if_pos hie]
      · rw [Pipeline.ofEntity_single_of_ne fun h => hie (h.symm.trans howner), if_neg hie]
    rw [(hentity i).2.2, htaken]
    by_cases hie : i = e
    · simp [hie]
    · simpa [hie] using last i ((hentity i).2.1 ▸ hi)
  all_goals simp only [Through, hjobs, hentity]
  case turned => exact turned
  case apart => exact apart

/-- No job is pushed or taken, and no entity turns or forgets its last job before its end. -/
structure Leaves (st st' : State) : Prop where
  taken : st'.taken = st.taken
  pushed : st'.pushed = st.pushed
  sched : ∀ e, (st'.entities e).rq.sched = (st.entities e).rq.sched
  last : ∀ e, (st'.entities e).phase ≠ .gone → (st.entities e).phase ≠ .gone ∧
    (st'.entities e).lastScheduled = (st.entities e).lastScheduled

theorem Leaves.refl (st : State) : Leaves st st := ⟨rfl, rfl, fun _ => rfl, fun _ h => ⟨h, rfl⟩⟩

theorem Leaves.trans {st'' : State} (h : Leaves st st') (h' : Leaves st' st'') :
    Leaves st st'' where
  taken := h'.taken.trans h.taken
  pushed := h'.pushed.trans h.pushed
  sched e := (h'.sched e).trans (h.sched e)
  last e he := by
    obtain ⟨he', hlast'⟩ := h'.last e he
    obtain ⟨he'', hlast⟩ := h.last e he'
    exact ⟨he'', hlast'.trans hlast⟩

theorem leaves_of_eq (he : st'.entities = st.entities) (ht : st'.taken = st.taken)
    (hp : st'.pushed = st.pushed) : Leaves st st' :=
  ⟨ht, hp, fun e => by rw [he], fun e h => ⟨by rwa [he] at h, by rw [he]⟩⟩

theorem leaves_setEntity {f : Entity → Entity} (hsched : ∀ x, (f x).rq.sched = x.rq.sched)
    (hphase : (f (st.entities e)).phase ≠ .gone → (st.entities e).phase ≠ .gone ∧
      (f (st.entities e)).lastScheduled = (st.entities e).lastScheduled) :
    Leaves st (st.setEntity e f) := by
  constructor
  case taken | pushed => rfl
  all_goals
    simp only [State.setEntity]
    grind

theorem Leaves.setEntity (h : Leaves st st') {f : Entity → Entity}
    (hf : ∀ x, (f x).rq.sched = x.rq.sched ∧ (f x).phase = x.phase ∧
      (f x).lastScheduled = x.lastScheduled) : Leaves st (st'.setEntity e f) :=
  h.trans (leaves_setEntity (fun x => (hf x).1) fun hx => ⟨by rwa [(hf _).2.1] at hx, (hf _).2.2⟩)

theorem Leaves.setThread (h : Leaves st st') (s : ℕ) (t : Thread) :
    Leaves st (st'.setThread s t) :=
  h.trans (leaves_of_eq rfl rfl rfl)

theorem Leaves.setJob (h : Leaves st st') (j : ℕ) (f : Job → Job) : Leaves st (st'.setJob j f) :=
  h.trans (leaves_of_eq rfl rfl rfl)

theorem leaves_fenceScheduled (st : State) (j : ℕ) : Leaves st (st.fenceScheduled j) := by
  constructor
  case taken | pushed => rfl
  all_goals
    simp only [State.fenceScheduled, State.setJob]
    grind

theorem Leaves.rqAddEntity (h : Leaves st st') (rq : Rq) (e : ℕ) :
    Leaves st (st'.rqAddEntity rq e) := by
  unfold State.rqAddEntity
  split
  · exact h
  · have hlisted : Leaves st (st'.setEntity e fun x => { x with listed := true }) :=
      h.setEntity fun _ => ⟨rfl, rfl, rfl⟩
    exact hlisted.trans (leaves_of_eq rfl rfl rfl)

theorem Leaves.rqRemoveEntity (h : Leaves st st') (rq : Rq) (e : ℕ) :
    Leaves st (st'.rqRemoveEntity rq e) := by
  unfold State.rqRemoveEntity
  split
  · exact h
  · have hlisted : Leaves st (st'.setEntity e fun x => { x with listed := false }) :=
      h.setEntity fun _ => ⟨rfl, rfl, rfl⟩
    exact hlisted.trans (leaves_of_eq rfl rfl rfl)

theorem Leaves.wakeup (h : Leaves st st') (s : ℕ) : Leaves st (st'.wakeup s) := by
  rw [wakeup_eq]
  exact h.setThread s _

theorem leaves_waitFor (st : State) (s e j : ℕ) (f : Fence) : Leaves st (st.waitFor s e j f) := by
  unfold waitFor
  split
  · exact (Leaves.refl st).setThread s _
  · apply Leaves.setThread
    exact (Leaves.refl st).setEntity fun _ => ⟨rfl, rfl, rfl⟩

theorem leaves_killJob (st : State) (e j : ℕ) : Leaves st (st.killJob e j) := by
  have hqueue : Leaves st (st.setEntity e fun x => { x with queue := x.queue.tail }) :=
    (Leaves.refl st).setEntity fun _ => ⟨rfl, rfl, rfl⟩
  have hkilled : Leaves st { st.setEntity e fun x => { x with queue := x.queue.tail } with
      killed := Function.update st.killed e (st.killed e ++ [j]) } :=
    hqueue.trans (leaves_of_eq rfl rfl rfl)
  have hfence := hkilled.trans (leaves_fenceScheduled _ j)
  unfold State.killJob
  dsimp only
  split
  · exact (hfence.setJob j _).setJob j _
  · split <;> exact (hfence.setJob j _).setJob j _

theorem Moves.settled (hs : Sound st) (hi : Settled st) {ev : Event} (h : Moves st ev st') :
    Settled st' := by
  have hk := h.kept hs
  have hst := Leaves.refl st
  have hframe : Leaves st st' → Settled st' := fun h =>
    hi.frame hs hk h.taken h.pushed (fun e => .inl (h.sched e)) h.last
  cases h with
  | @create e rq rqList guilty hg hr =>
    have hnone : st.pushed e = [] := by
      apply List.eq_nil_iff_forall_not_mem.mpr
      intro k hk
      obtain ⟨hborn, howner⟩ := born_of_pushed hs hk
      exact hs.linked.owner k hborn (howner ▸ hg)
    have hlast := hi.last e (by simp [hg])
    have htaken : st.takenOf e = [] := by
      have hpushed := hs.ordered.pushed e
      simp only [pipeline, hnone] at hpushed
      exact (List.append_eq_nil_iff.mp (List.append_eq_nil_iff.mp hpushed.symm).1).1
    rw [htaken] at hlast
    apply hi.frame hs hk rfl rfl
    all_goals
      simp only [State.create, State.setEntity]
      grind
  | @jobInit e deps vm hphase hpusher hdeps =>
    obtain ⟨hphase', hpusher'⟩ := selectRq_entity st e
    have hs' := hs.selectRq hphase hpusher
    have hmake := hs'.makeJob (hphase'.trans hphase) (hpusher'.trans hpusher) deps vm
    have hseq : Leaves (st.selectRq e) ((st.selectRq e).setEntity e fun x =>
        { x with fenceSeq := x.fenceSeq + 1, pusher := .made (st.selectRq e).next }) :=
      Leaves.setEntity (.refl _) fun _ => ⟨rfl, rfl, rfl⟩
    have hleaves : Leaves (st.selectRq e) ((st.selectRq e).makeJob e deps vm) :=
      hseq.trans (leaves_of_eq rfl rfl rfl)
    exact (hi.selectRq hs hphase).frame hs' hmake hleaves.taken hleaves.pushed
      (fun i => .inl (hleaves.sched i)) hleaves.last
  | @initFails e hphase hpusher => exact hi.selectRq hs hphase
  | push hg => exact hi.pushJob hs hk hg
  | @take s e j hg => exact hi.take hs hg
  | @publish e j hg => exact hframe ((hst.setJob j _).setEntity fun _ => ⟨rfl, rfl, rfl⟩)
  | abandon | blame => exact hframe (hst.setEntity fun _ => ⟨rfl, rfl, rfl⟩)
  | @enlist e hg =>
    apply hframe
    unfold State.enlist
    split
    · exact hst.setEntity fun _ => ⟨rfl, rfl, rfl⟩
    · exact (hst.rqAddEntity _ e).setEntity fun _ => ⟨rfl, rfl, rfl⟩
  | @pushWakeup e hg => exact hframe ((hst.wakeup _).setEntity fun _ => ⟨rfl, rfl, rfl⟩)
  | @setPriority e priority hphase hp =>
    apply hframe
    apply Leaves.rqAddEntity
    refine Leaves.setEntity ?_ fun _ => ⟨rfl, rfl, rfl⟩
    apply Leaves.rqRemoveEntity
    exact hst.setEntity fun _ => ⟨rfl, rfl, rfl⟩
  | @stop e hphase =>
    have hstopped : Leaves st (st.setEntity e fun x => { x with stopped := true }) :=
      hst.setEntity fun _ => ⟨rfl, rfl, rfl⟩
    exact hframe (hstopped.rqRemoveEntity _ e)
  | @finiRemove e hphase hpusher =>
    apply hframe
    apply (hst.rqRemoveEntity _ e).trans
    exact leaves_setEntity (fun _ => rfl) fun _ => ⟨by simp [rqRemoveEntity_eq, hphase], rfl⟩
  | @finiPark e hphase hq =>
    apply hframe
    unfold State.finiPark
    split
    · exact leaves_setEntity (fun _ => rfl) fun _ => ⟨by simp [hphase], rfl⟩
    · apply (hst.setThread _ .check).trans
      exact leaves_setEntity (fun _ => rfl) fun _ => ⟨by simp [State.setThread, hphase], rfl⟩
  | finiDependency hphase =>
    exact hframe (leaves_setEntity (fun _ => rfl) fun _ => ⟨by simp [hphase], rfl⟩)
  | @kill e j rest hq hphase => exact hframe (leaves_killJob st e j)
  | finiDone hphase hq =>
    exact hframe (leaves_setEntity (fun _ => rfl) fun h => absurd rfl h)
  | @scan s p woken hg =>
    apply hframe
    unfold State.scan
    split
    · exact leaves_of_eq rfl rfl rfl
    · split <;> exact leaves_of_eq rfl rfl rfl
  | @dependency s e j hg =>
    apply hframe
    unfold State.dependency
    dsimp only
    split
    · apply Leaves.setThread
      apply Leaves.setEntity (hst.setJob j _)
      exact fun _ => ⟨rfl, rfl, rfl⟩
    · split
      · exact (hst.setJob j _).setThread s _
      · apply Leaves.setThread
        apply Leaves.setEntity (hst.setJob j _)
        exact fun _ => ⟨rfl, rfl, rfl⟩
  | @addDependencyCb s e j f hg =>
    apply hframe
    unfold State.addDependencyCb
    split
    · exact leaves_waitFor st s e j f
    · split
      · exact hst.setThread s _
      · split
        · have hdep : ∀ k, Leaves st (st.setEntity e fun x =>
              { x with dependency := some (.scheduled k) }) :=
            fun _ => hst.setEntity fun _ => ⟨rfl, rfl, rfl⟩
          dsimp only
          split
          · exact (hdep _).setThread s _
          · apply Leaves.setThread
            apply Leaves.setEntity (hdep _)
            exact fun _ => ⟨rfl, rfl, rfl⟩
        · exact leaves_waitFor st s e j f
  | @post s j hg =>
    apply hframe
    exact ((leaves_fenceScheduled st j).setJob j _).setThread s _
  | @attach s j hg =>
    apply hframe
    unfold State.attach
    split <;> exact leaves_of_eq rfl rfl rfl
  | @depCb e f hg hf =>
    apply hframe
    apply Leaves.wakeup
    apply hst.setEntity
    exact fun _ => ⟨rfl, rfl, rfl⟩
  | _ => exact hframe (leaves_of_eq rfl rfl rfl)

theorem start_settled (limit : ℕ → UInt32) : Settled (start limit) := by
  constructor <;> simp [start, takenOf, Pipeline.ofEntity]

theorem Reached.settled {limit : ℕ → UInt32} {good : State → Event → Prop}
    (h : Reached limit good st) : Settled st := by
  induction h with
  | start h => exact h ▸ start_settled limit
  | next hr hg hstep ih => exact (step_moves hstep).settled (Reached.sound hr) ih

/-- Of two jobs of an entity on different schedulers, the second is behind one of the first's
scheduler that is through: `drm_sched_entity_select_rq` keeps the order of an entity's jobs. -/
theorem turned_when_through {limit : ℕ → UInt32} {good : State → Event → Prop}
    (h : Reached limit good st) {k : ℕ} (hk : k ∈ st.pushed e) (hj : j ∈ st.pushed e) (hlt : k < j)
    (hne : (st.jobs k).sched ≠ (st.jobs j).sched) :
    ∃ m ∈ st.pushed e, k ≤ m ∧ m < j ∧ (st.jobs m).sched = (st.jobs k).sched ∧
      (st.jobs m).finished := by
  obtain ⟨m, hmj, hm, hle, hsched, hfin⟩ :=
    ((Reached.settled h).apart e k hk j hj hlt).resolve_left hne
  exact ⟨m, hm, hle, hmj, hsched, hfin⟩

/-- An entity with two run queues has a job run and finished on the first, and another one made while
the first has a job of another entity. -/
def turningRun : List Event :=
  [.create 0 ⟨0, 2⟩ [⟨1, 2⟩] none, .create 1 ⟨0, 2⟩ [] none, .jobInit 0 [] false, .publish 0, .push 0,
    .enlist 0, .pushWakeup 0] ++ List.replicate 9 (.thread 0) ++
  [.runJob 0 false (some false), .thread 0, .thread 0, .hwSignal 0, .processCb 0, .finish 0,
    .jobInit 1 [] false, .publish 1, .push 1, .enlist 1, .pushWakeup 1, .jobInit 0 [] false,
    .publish 0, .push 0, .enlist 0, .pushWakeup 0]

theorem turned_when_through_turning : ∃ st, Reached (fun _ => 2) (fun _ _ => True) st ∧
    st.pushed 0 = [0, 2] ∧ (st.jobs 0).sched = 0 ∧ (st.jobs 2).sched = 1 ∧
      ∃ m ∈ st.pushed 0, 0 ≤ m ∧ m < 2 ∧ (st.jobs m).sched = 0 ∧ (st.jobs m).finished := by
  have hrun : (turningRun.foldlM State.step (start fun _ => 2)).map
      (fun st => (st.pushed 0, (st.jobs 0).sched, (st.jobs 2).sched)) = some ([0, 2], 0, 1) := by
    decide +kernel
  obtain ⟨st, hreach, hst⟩ := reached_of_run (fun _ _ _ => trivial) hrun
  simp only [Prod.mk.injEq] at hst
  obtain ⟨hpushed, hzero, htwo⟩ := hst
  refine ⟨st, hreach, hpushed, hzero, htwo, ?_⟩
  obtain ⟨m, hm, hle, hlt, hsched, hfin⟩ := turned_when_through hreach (e := 0) (k := 0) (j := 2)
    (by simp [hpushed]) (by simp [hpushed]) (by decide) (by simp [hzero, htwo])
  exact ⟨m, hm, hle, hlt, hsched.trans hzero, hfin⟩

end State

end Gsgpu.Sched
