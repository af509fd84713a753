import Gsgpu.Sched.Pipeline

/-! Every job is at one place, and the jobs of an entity are run in the order in which they were
pushed. -/
namespace Gsgpu.Sched

attribute [grind] Stage.inHand Stage.beforeRun Stage.onMirror Stage.inFlight Stage.isScheduled
  Stage.isFinished Stage.isFreed Stage.hasRun

namespace Stage

/-- Taken from its queue by a scheduler. -/
@[grind] def wasTaken (a : Stage) : Bool := a.beforeRun || a.hasRun

/-- Taken from its queue by the end of its entity. -/
@[grind] def wasKilled : Stage → Bool
  | dying | dead => true
  | _ => false

end Stage

namespace Pipeline

attribute [local grind =] Function.update_apply

variable {p p' : Pipeline}

/-- Where the jobs of a stage are. -/
structure Placed (p : Pipeline) : Prop where
  fresh : ∀ j, p.next ≤ j ↔ p.stage j = .unborn
  queued : ∀ e j, j ∈ p.queue e ↔ p.stage j = .queued ∧ p.entity j = e
  queue_nodup : ∀ e, (p.queue e).Nodup
  held : ∀ s j, p.hand s = some j ↔ (p.stage j).inHand ∧ p.sched j = s
  mirrored : ∀ s j, j ∈ p.mirror s ↔ (p.stage j).onMirror ∧ p.sched j = s
  mirror_nodup : ∀ s, (p.mirror s).Nodup

theorem Initial.placed (h : Initial p) : Placed p := by
  obtain ⟨hn, hst, hq, hh, hm, -⟩ := h
  constructor <;> simp [hn, hst, hq, hh, hm, Stage.inHand, Stage.onMirror]

theorem Placed.step_held (hi : Placed p) (h : Step p p') (s j : ℕ) :
    p'.hand s = some j ↔ (p'.stage j).inHand ∧ p'.sched j = s := by
  have hheld := hi.held
  have hfresh := hi.fresh
  cases h with
  | @attach j' hj | @passed j' hj =>
    have hmine := (hheld (p.sched j') j').mpr ⟨by rw [hj]; rfl, rfl⟩
    simp only [setStage]
    grind -linarith
  | _ =>
    simp only [setStage]
    grind -linarith

theorem Placed.step (hi : Placed p) (h : Step p p') : Placed p' := by
  have hheld := hi.step_held h
  obtain ⟨hfresh, hqueued, hnodup, -, hmirrored, hmnodup⟩ := hi
  constructor
  case held => exact hheld
  all_goals
    clear hheld
    cases h <;> simp only [setStage] <;> grind -linarith

/-- The jobs of a list that are of an entity. -/
def ofEntity (entity : ℕ → ℕ) (e : ℕ) (l : List ℕ) : List ℕ := l.filter fun j => entity j = e

theorem ofEntity_append (entity : ℕ → ℕ) (e : ℕ) (l l' : List ℕ) :
    ofEntity entity e (l ++ l') = ofEntity entity e l ++ ofEntity entity e l' :=
  List.filter_append l l'

theorem ofEntity_single {entity : ℕ → ℕ} {e j : ℕ} (h : entity j = e) :
    ofEntity entity e [j] = [j] := by
  simp [ofEntity, h]

theorem ofEntity_single_of_ne {entity : ℕ → ℕ} {e j : ℕ} (h : entity j ≠ e) :
    ofEntity entity e [j] = [] := by
  simp [ofEntity, h]

/-- Making a job says nothing of those that were taken. -/
theorem ofEntity_make {entity : ℕ → ℕ} {l : List ℕ} {n : ℕ} (e e' : ℕ) (h : n ∉ l) :
    ofEntity (Function.update entity n e') e l = ofEntity entity e l := by
  unfold ofEntity
  apply List.filter_congr
  intro j hj
  have hne : j ≠ n := fun heq => h (by rwa [← heq])
  rw [Function.update_of_ne hne]

/-- The histories agree with the stages, and an entity's jobs leave its queue in order. -/
structure Ordered (p : Pipeline) : Prop where
  taken : ∀ j, j ∈ p.taken ↔ (p.stage j).wasTaken
  ran : ∀ j, j ∈ p.ran ↔ (p.stage j).hasRun
  killed : ∀ e j, j ∈ p.killed e ↔ (p.stage j).wasKilled ∧ p.entity j = e
  sorted : ∀ e, (p.pushed e).Pairwise (· < ·)
  pushed : ∀ e, p.pushed e = ofEntity p.entity e p.taken ++ p.killed e ++ p.queue e

theorem Initial.ordered (h : Initial p) : Ordered p := by
  obtain ⟨-, hst, hq, -, -, -, hp, hk, ht, hr⟩ := h
  constructor <;> simp [hst, hq, hp, hk, ht, hr, ofEntity, Stage.wasTaken, Stage.wasKilled, Stage.beforeRun,
    Stage.hasRun]

theorem Ordered.step_pushed (ho : Ordered p) (hi : Placed p) (h : Step p p') (e : ℕ) :
    p'.pushed e = ofEntity p'.entity e p'.taken ++ p'.killed e ++ p'.queue e := by
  have hp := ho.pushed e
  cases h with
  | make e' s =>
    have hnew : p.next ∉ p.taken := by
      rw [ho.taken, (hi.fresh p.next).mp le_rfl]
      decide
    simp only [setStage, ofEntity_make e e' hnew]
    exact hp
  | @push e' j hj he hlast =>
    simp only [setStage]
    by_cases heq : e = e'
    · subst heq
      simp [hp]
    · simp [Function.update_of_ne heq, hp]
  | @take s e' j rest hj he hq hs hhand hroom hkilled hlast =>
    simp only [setStage, ofEntity_append]
    by_cases heq : e = e'
    · subst heq
      rw [hq, hkilled] at hp
      simp [hp, hkilled, ofEntity_single he]
    · have hne : p.entity j ≠ e := fun h => heq (h.symm.trans he)
      simp [Function.update_of_ne heq, hp, ofEntity_single_of_ne hne]
  | @kill e' j rest a ha hj he hq =>
    simp only [setStage]
    by_cases heq : e = e'
    · subst heq
      rw [hq] at hp
      simp [hp]
    · simp [Function.update_of_ne heq, hp]
  | _ => exact hp

/-- The jobs of an entity that were pushed. -/
theorem Ordered.mem_pushed (ho : Ordered p) (hi : Placed p) (e j : ℕ) :
    j ∈ p.pushed e ↔ p.entity j = e ∧
      ((p.stage j).wasTaken ∨ (p.stage j).wasKilled ∨ p.stage j = .queued) := by
  rw [ho.pushed, List.mem_append, List.mem_append, ho.killed, hi.queued]
  unfold ofEntity
  rw [List.mem_filter, ho.taken]
  grind -linarith

theorem Ordered.pushed_lt (ho : Ordered p) (hi : Placed p) {e j : ℕ} (h : j ∈ p.pushed e) :
    j < p.next := by
  obtain ⟨-, hstage⟩ := (ho.mem_pushed hi e j).mp h
  by_contra hle
  rw [(hi.fresh j).mp (Nat.le_of_not_lt hle)] at hstage
  simp [Stage.wasTaken, Stage.wasKilled, Stage.beforeRun, Stage.hasRun] at hstage

theorem Ordered.step (ho : Ordered p) (hi : Placed p) (h : Step p p') : Ordered p' := by
  have hpushed := ho.step_pushed hi h
  have hfresh := hi.fresh
  obtain ⟨htaken, hran, hkilled, hsorted, -⟩ := ho
  constructor
  case pushed => exact hpushed
  all_goals
    clear hpushed
    cases h <;> simp only [setStage] <;> grind -linarith

/-- The jobs of an entity that are taken and not yet run: there is at most one. -/
def Unrun (p : Pipeline) (e : ℕ) (l : List ℕ) : Prop :=
  l.length ≤ 1 ∧ ∀ j, j ∈ l ↔ (p.stage j).beforeRun ∧ p.entity j = e

/-- An entity's jobs are run in the order in which they were taken. -/
def InOrder (p : Pipeline) : Prop :=
  ∀ e, ∃ l, Unrun p e l ∧ ofEntity p.entity e p.taken = ofEntity p.entity e p.ran ++ l

theorem Initial.inOrder (h : Initial p) : InOrder p := by
  obtain ⟨-, hst, -, -, -, -, -, -, ht, hr⟩ := h
  intro e
  refine ⟨[], ⟨Nat.zero_le _, fun j => ?_⟩, ?_⟩
  · simp [hst, Stage.beforeRun]
  · simp [ht, hr, ofEntity]

/-- A step that takes no job and runs none leaves the order. -/
theorem InOrder.quiet (hi : InOrder p) (htaken : p'.taken = p.taken) (hran : p'.ran = p.ran)
    (hof : ∀ e, ∀ l ∈ [p.taken, p.ran], ofEntity p'.entity e l = ofEntity p.entity e l)
    (hstage : ∀ e j, (p'.stage j).beforeRun ∧ p'.entity j = e ↔
      (p.stage j).beforeRun ∧ p.entity j = e) : InOrder p' := by
  intro e
  obtain ⟨l, hl, horder⟩ := hi e
  refine ⟨l, ⟨hl.1, fun j => (hl.2 j).trans (hstage e j).symm⟩, ?_⟩
  rw [htaken, hran, hof e _ (by simp), hof e _ (by simp)]
  exact horder

theorem InOrder.step (hi : InOrder p) (ho : Ordered p) (hp : Placed p) (h : Step p p') :
    InOrder p' := by
  have hfresh := hp.fresh
  cases h with
  | make e' s =>
    have hst := (hfresh p.next).mp le_rfl
    have hnew : p.next ∉ p.taken := by
      rw [ho.taken, hst]
      decide
    have hnew' : p.next ∉ p.ran := by
      rw [ho.ran, hst]
      decide
    apply hi.quiet
    case htaken | hran => rfl
    case hof =>
      intro e l hl
      simp only [List.mem_cons, List.not_mem_nil, or_false] at hl
      cases hl with
      | inl heq => exact heq ▸ ofEntity_make e e' hnew
      | inr heq => exact heq ▸ ofEntity_make e e' hnew'
    case hstage =>
      simp only [setStage]
      grind -linarith
  | @take s e' j rest hj he hq hs hhand hroom hkilled hlast =>
    intro e
    obtain ⟨l, hl, horder⟩ := hi e
    by_cases heq : e = e'
    · subst heq
      have hnil : l = [] := by
        apply List.eq_nil_iff_forall_not_mem.mpr
        intro k hk
        have hbefore := (hl.2 k).mp hk
        rw [hlast k hbefore.2] at hbefore
        cases hbefore.1
      subst hnil
      refine ⟨[j], ⟨le_rfl, fun k => ?_⟩, ?_⟩
      · simp only [setStage]
        grind -linarith
      · simp only [setStage, ofEntity_append, ofEntity_single he]
        rw [horder, List.append_nil]
    · refine ⟨l, ⟨hl.1, fun k => (hl.2 k).trans ?_⟩, ?_⟩
      · simp only [setStage]
        grind -linarith
      · have hne : p.entity j ≠ e := fun h => heq (h.symm.trans he)
        simp only [setStage, ofEntity_append, ofEntity_single_of_ne hne, List.append_nil]
        exact horder
  | @run j hj =>
    intro e
    obtain ⟨l, hl, horder⟩ := hi e
    by_cases he : p.entity j = e
    · have hmem : j ∈ l := (hl.2 j).mpr ⟨by rw [hj]; rfl, he⟩
      have hone : l = [j] := by
        obtain ⟨x, hx⟩ := List.length_eq_one_iff.mp (le_antisymm hl.1 (List.length_pos_of_mem hmem))
        rw [hx, List.mem_singleton] at hmem
        rw [hx, hmem]
      subst hone
      refine ⟨[], ⟨Nat.zero_le _, fun k => ?_⟩, ?_⟩
      · have hk := hl.2 k
        simp only [setStage]
        grind -linarith
      · simp only [setStage, ofEntity_append, ofEntity_single he, List.append_nil]
        exact horder
    · refine ⟨l, ⟨hl.1, fun k => (hl.2 k).trans ?_⟩, ?_⟩
      · simp only [setStage]
        grind -linarith
      · simp only [setStage, ofEntity_append, ofEntity_single_of_ne he, List.append_nil]
        exact horder
  | _ =>
    apply hi.quiet
    case htaken | hran => rfl
    case hof => exact fun _ _ _ => rfl
    case hstage =>
      simp only [setStage]
      grind -linarith

/-- The jobs an entity was given are those it has run, in the same order, one at most that its
scheduler has in hand, those that were killed, and those that wait. -/
theorem pushed_split (ho : Ordered p) (hi : InOrder p) (e : ℕ) :
    ∃ l, Unrun p e l ∧
      p.pushed e = ofEntity p.entity e p.ran ++ l ++ p.killed e ++ p.queue e := by
  obtain ⟨l, hl, horder⟩ := hi e
  exact ⟨l, hl, horder ▸ ho.pushed e⟩

end Pipeline

end Gsgpu.Sched
