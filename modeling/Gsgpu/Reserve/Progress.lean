import Gsgpu.Lib.WaitDie
import Gsgpu.Reserve.Exact

/-! Calls that take their buffers in different orders do not wait for each other. -/
namespace Gsgpu.Reserve

variable {w : Buffers} {st st' : State} {i : ℕ}

/-- It does not come from a signal. -/
def Event.quiet : Event → Bool
  | .lock _ signal | .slow _ signal => !signal
  | _ => true

namespace State

/-- The lock that a call sleeps for. One that has no lock yet may sleep for any that is taken. -/
def wants (w : Buffers) (st : State) : Owner → Option ℕ
  | .other => none
  | .call i =>
    match (st.call i).phase with
    | .lock before (e :: _) =>
      if (st.boReserve i (w.lock e) false).isNone ∨
          before = [] ∧ (st.call i).ticket.isSome ∧ (st.owner (w.lock e)).isSome then
        some (w.lock e)
      else none
    | .slow e _ _ => if (st.owner (w.lock e)).isSome then some (w.lock e) else none
    | _ => none

/-- The stamp of its ticket; who has none is not waited for by anybody that could be older. -/
def stamp (st : State) : Owner → ℕ
  | .other => st.next
  | .call i => (st.call i).ticket.getD st.next

/-- Of its own steps, only the start of `ttm_eu_reserve_buffers` changes the ticket of a call. -/
theorem step_own_ticket {ev : Event} {k : ℕ} (hmover : ev.mover = .call k)
    (hs : st.step w ev = some st') : (st'.call k).ticket = (st.call k).ticket ∨
      (st'.call k).ticket = none ∨ (st'.call k).ticket = some st.next := by
  cases ev <;> cases hmover <;> simp only [step] at hs
  case reserve =>
    unfold reserve at hs
    split at hs
    · split at hs
      · cases hs
        simp [setCall]
      · split at hs <;> cases hs <;> simp [setCall]
    · cases hs
  case lock =>
    unfold lock at hs
    split at hs
    · obtain ⟨ret, -, rfl⟩ := Option.map_eq_some_iff.mp hs
      cases ret with
      | none => simp
      | some ret =>
        dsimp only
        split <;> simp [setCall]
    · cases hs
  case writers =>
    unfold writers at hs
    split at hs
    · split at hs
      · cases hs
        simp
      · split at hs <;> cases hs <;> simp
    · cases hs
  case share =>
    unfold share at hs
    split at hs
    · split at hs
      · cases hs
        simp
      · split at hs <;> cases hs <;> simp
    · cases hs
  case back =>
    unfold back at hs
    split at hs
    · split at hs
      · cases hs
        simp
      · split at hs <;> cases hs <;> simp
    · cases hs
  case slow =>
    unfold slow at hs
    split at hs
    · split at hs
      · cases hs
        simp
      · split at hs <;> cases hs
        simp
    · cases hs
  case finish =>
    unfold finish at hs
    split at hs <;> cases hs
    simp
  case leave =>
    unfold leave at hs
    split at hs <;> cases hs
    simp
  case unlock =>
    unfold unlock at hs
    split at hs
    · cases hs
      split <;> simp
    · cases hs
      simp
    · cases hs

/-- A call that sleeps has a ticket, and the owner of the lock has none or one that is not older. -/
theorem boReserve_isNone {l : ℕ} (hs : (st.boReserve i l false).isNone) {o : Owner}
    (ho : st.owner l = some o) : ∃ mine, (st.call i).ticket = some mine ∧ o ≠ .call i ∧
      ∀ k his, o = .call k → (st.call k).ticket = some his → mine ≤ his := by
  unfold boReserve at hs
  rw [ho] at hs
  cases hticket : (st.call i).ticket with
  | none => simp [hticket] at hs
  | some mine =>
    refine ⟨mine, rfl, ?_, ?_⟩
    · rintro rfl
      simp [hticket] at hs
    · rintro k his rfl hhis
      apply Nat.le_of_not_lt
      intro hlt
      simp [hticket, hhis, hlt] at hs
      split at hs <;> simp at hs

/-- No two calls have the same ticket. -/
def Distinct (st : State) : Prop :=
  ∀ i k s, (st.call i).ticket = some s → (st.call k).ticket = some s → i = k

theorem Distinct.step (hd : Distinct st) (h : ∀ k, Holds w st k) {ev : Event}
    (hs : st.step w ev = some st') : Distinct st' := by
  have hnew : ∀ k s, (st'.call k).ticket = some s →
      (st.call k).ticket = some s ∨ ev.mover = .call k ∧ s = st.next := by
    intro k s hk
    by_cases hmover : ev.mover = .call k
    · obtain hsame | hnone | hmade := step_own_ticket hmover hs
      · exact .inl (hsame ▸ hk)
      · rw [hnone] at hk
        cases hk
      · rw [hmade] at hk
        exact .inr ⟨hmover, (Option.some.inj hk).symm⟩
    · exact .inl ((step_frame h hs).call k hmover ▸ hk)
  intro i k s hi hk
  obtain hi | ⟨hmi, hsi⟩ := hnew i s hi
  · obtain hk | ⟨-, hsk⟩ := hnew k s hk
    · exact hd i k s hi hk
    · exact absurd ((h i).stamp s hi) (by omega)
  · obtain hk | ⟨hmk, -⟩ := hnew k s hk
    · exact absurd ((h k).stamp s hk) (by omega)
    · rw [hmi] at hmk
      cases hmk
      rfl

theorem Reached.distinct (h : Reached w st) : Distinct st := by
  induction h with
  | start hinit => simp [hinit, Distinct, start]
  | next hr _ hstep ih => exact ih.step (Reached.holds hr) hstep

/-- Who sleeps for a lock with another in hand is older than who has it. -/
theorem ordered (h : Reached w st) :
    WaitDie.Ordered st.owner (st.wants w) st.stamp st.next where
  bounded := by
    intro o l _
    cases o with
    | other => exact Nat.le_refl _
    | call i =>
      cases hticket : (st.call i).ticket with
      | none => simp [stamp, hticket]
      | some s => simpa [stamp, hticket] using Nat.le_of_lt ((Reached.holds h i).stamp s hticket)
  grows := by
    rintro (i | _) b l hl ⟨m, hwants, hm⟩
    · have hi := Reached.holds h i
      have hmem := (hi.owned l).mp hl
      unfold wants at hwants
      dsimp only at hwants
      split at hwants
      · next before e rest hphase =>
        rw [hphase] at hmem
        have hbefore : before ≠ [] := by
          rintro rfl
          simp [Phase.held] at hmem
        split at hwants
        · next hasleep =>
          cases hwants
          obtain hasleep | hnothing := hasleep
          · obtain ⟨mine, hmine, hne, hyounger⟩ := boReserve_isNone hasleep hm
            have hlt := hi.stamp mine hmine
            cases b with
            | other => simpa [stamp, hmine] using hlt
            | call k =>
              cases hticket : (st.call k).ticket with
              | none => simpa [stamp, hmine, hticket] using hlt
              | some his =>
                have hle := hyounger k his rfl hticket
                have hdiff : mine ≠ his := by
                  rintro rfl
                  exact hne (congrArg Owner.call (Reached.distinct h i k mine hmine hticket)).symm
                simp only [stamp, hmine, hticket, Option.getD_some]
                omega
          · exact absurd hnothing.1 hbefore
        · cases hwants
      · next hphase =>
        rw [hphase] at hmem
        simp [Phase.held] at hmem
      · cases hwants
    · cases hwants

/-- A lock that is slept for is taken. -/
theorem wants_taken {o : Owner} {l : ℕ} (hw : st.wants w o = some l) : (st.owner l).isSome := by
  cases o with
  | other => cases hw
  | call i =>
    unfold wants at hw
    dsimp only at hw
    split at hw
    · next before e rest hphase =>
      split at hw
      · next hasleep =>
        cases hw
        obtain hasleep | hnothing := hasleep
        · cases howner : st.owner (w.lock e) with
          | none => simp [boReserve, howner] at hasleep
          | some o => rfl
        · exact hnothing.2.2
      · cases hw
    · split at hw
      · next htaken =>
        cases hw
        exact htaken
      · cases hw
    · cases hw

/-- A call that has a lock and does not sleep goes on without a signal, unless it has returned with
the lock of an entry for which it could not reserve a slot. -/
theorem goes_on (h : Reached w st) {l : ℕ} (hl : st.owner l = some (.call i))
    (hw : st.wants w (.call i) = none) : (∃ e, (st.call i).phase = .failed .nomem e) ∨
      ∃ ev st', ev.mover = .call i ∧ ev.quiet ∧ st.step w ev = some st' := by
  have hmem := ((Reached.holds h i).owned l).mp hl
  unfold wants at hw
  cases hphase : (st.call i).phase with
  | lock before rest =>
    cases rest with
    | nil =>
      right
      refine ⟨.finish i, ?_⟩
      simp only [step, finish, hphase]
      exact ⟨_, rfl, rfl, rfl⟩
    | cons e rest =>
      simp only [hphase, ite_eq_right_iff, reduceCtorEq, imp_false, not_or] at hw
      right
      refine ⟨.lock i false, ?_⟩
      simp only [step, lock, hphase]
      cases hret : st.boReserve i (w.lock e) false with
      | none => exact absurd (by rw [hret]; rfl) hw.1
      | some ret => exact ⟨_, rfl, rfl, rfl⟩
  | writers e before rest =>
    right
    refine ⟨.writers i, ?_⟩
    simp only [step, writers, hphase]
    split
    · exact ⟨_, rfl, rfl, rfl⟩
    · split <;> exact ⟨_, rfl, rfl, rfl⟩
  | share e waited before rest =>
    right
    refine ⟨.share i true, ?_⟩
    simp only [step, share, hphase, if_true]
    exact ⟨_, rfl, rfl, rfl⟩
  | back ret e left before rest =>
    right
    refine ⟨.back i, ?_⟩
    simp only [step, back, hphase]
    split
    · exact ⟨_, rfl, rfl, rfl⟩
    · split <;> exact ⟨_, rfl, rfl, rfl⟩
  | reserved list =>
    right
    refine ⟨.leave i true, ?_⟩
    simp only [step, leave, hphase]
    exact ⟨_, rfl, rfl, rfl⟩
  | release fence todo =>
    right
    refine ⟨.unlock i false, ?_⟩
    cases todo <;> simp only [step, unlock, hphase] <;> exact ⟨_, rfl, rfl, rfl⟩
  | failed ret e =>
    rw [hphase] at hmem
    by_cases hret : ret = .nomem
    · exact .inl ⟨e, by rw [hret]⟩
    · simp [Phase.held, hret] at hmem
  | idle | slow | finished =>
    rw [hphase] at hmem
    simp [Phase.held] at hmem

/-- Whoever sleeps for a lock waits in the end for a call that goes on, for one without a ticket, or
for a call that returned with a lock because it could not reserve a slot. -/
theorem not_deadlocked (h : Reached w st) {l : ℕ} (hi : st.wants w (.call i) = some l) :
    ∃ o, Relation.TransGen (WaitDie.WaitsFor st.owner (st.wants w)) (.call i) o ∧
      (o = .other ∨ ∃ k, o = .call k ∧ ((∃ e, (st.call k).phase = .failed .nomem e) ∨
        ∃ ev st', ev.mover = .call k ∧ ev.quiet ∧ st.step w ev = some st')) := by
  obtain ⟨o, hreach, ⟨m, hm⟩, hfree⟩ :=
    (ordered h).exists_free (fun _ _ hw => wants_taken hw) hi
  refine ⟨o, hreach, ?_⟩
  cases o with
  | other => exact .inl rfl
  | call k => exact .inr ⟨k, rfl, goes_on h hm hfree⟩

theorem not_deadlocked_crossed : ∃ st, Reached tenBuffers st ∧
    st.wants tenBuffers (.call 1) = some 0 ∧
      ∃ o, Relation.TransGen (WaitDie.WaitsFor st.owner (st.wants tenBuffers)) (.call 1) o := by
  have hrun : ((crossedRun.take 13).foldlM (State.step tenBuffers) State.start).map
      (fun st => st.wants tenBuffers (.call 1)) = some (some 0) := by
    decide
  obtain ⟨st, hreach, hwants⟩ := reached_of_run hrun
  obtain ⟨o, ho, -⟩ := not_deadlocked hreach hwants
  exact ⟨st, hreach, hwants, o, ho⟩

end State
end Gsgpu.Reserve
