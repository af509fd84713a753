import Gsgpu.Sched.Wakeup

/-! What the scheduler does for its entities, its hardware and its jobs, whatever the order of steps. -/
namespace Gsgpu.Sched

/-- A thread whose job is counted in `hw_rq_count`. -/
def Thread.inFlight : Thread → Option ℕ
  | .counted j | .begun j | .ran j | .posted j => some j
  | _ => none

namespace State

variable {st : State} {s e j : ℕ} {limit : ℕ → UInt32} {good : State → Event → Prop}

/-- A job that was run and freed, one that is on the ring, and one that waits on another scheduler. -/
def servedRun : List Event :=
  turningRun ++ List.replicate 9 (.thread 0) ++ [.runJob 0 false (some false), .thread 0, .thread 0]

theorem served_reached : ∃ st, Reached (fun _ => 2) (fun _ _ => True) st ∧ st.pushed 0 = [0, 2] ∧
    st.ran = [0, 1] ∧ (st.entities 0).queue = [2] ∧ (st.jobs 0).freed = 1 ∧
      (st.jobs 1).attached = true ∧ (st.jobs 1).sched = 0 := by
  have hrun : (servedRun.foldlM State.step (start fun _ => 2)).map (fun st =>
      (st.pushed 0, st.ran, (st.entities 0).queue, (st.jobs 0).freed, (st.jobs 1).attached,
        (st.jobs 1).sched)) = some ([0, 2], [0, 1], [2], 1, true, 0) := by decide +kernel
  obtain ⟨st, hreach, hst⟩ := reached_of_run (fun _ _ _ => trivial) hrun
  simp only [Prod.mk.injEq] at hst
  exact ⟨st, hreach, hst⟩

theorem Reached.submissionLimit (h : Reached limit good st) : st.hwSubmissionLimit = limit := by
  induction h with
  | start h => exact h ▸ rfl
  | next hr hg hstep ih =>
    exact (((step_moves hstep).kept (Reached.sound hr)).follows.limit).trans ih

/-- `hw_rq_count` is the number of jobs that are on the ring or about to be, and never more than
`hw_submission_limit`. -/
theorem hwRqCount_exact (h : Reached limit good st) (s : ℕ) : ∃ flight : Finset ℕ,
    (∀ j, j ∈ flight ↔ (st.jobs j).sched = s ∧
      ((st.jobs j).attached ∨ (st.threads s).inFlight = some j)) ∧
    (st.hwRqCount s).toNat = flight.card ∧ flight.card ≤ (limit s).toNat := by
  have hs := Reached.sound h
  refine ⟨st.pipeline.flight s, fun j => ?_, hs.counted.toNat s,
    Reached.submissionLimit h ▸ hs.counted.le_limit s⟩
  rw [Pipeline.mem_flight hs.placed]
  have hheld := hs.placed.held s j
  have hstage : ∀ a, (st.threads s).held = some (j, a) → (st.jobs j).stage = a :=
    fun a ha => (hs.linked.held s j a ha).1
  have hattached := (hs.flagged j).attached
  simp only [pipeline] at hheld ⊢
  rw [hattached]
  cases hst : (st.jobs j).stage <;> cases ht : st.threads s <;>
    simp [hst, ht, Thread.held, Thread.inFlight, Stage.inFlight, Stage.inHand] at hheld hstage ⊢ <;>
    grind

theorem hwRqCount_exact_served : ∃ st, Reached (fun _ => 2) (fun _ _ => True) st ∧
    ∃ flight : Finset ℕ, 1 ∈ flight ∧ (st.hwRqCount 0).toNat = flight.card ∧ flight.card ≤ 2 := by
  obtain ⟨st, hreach, -, -, -, -, hattached, hsched⟩ := served_reached
  obtain ⟨flight, hmem, hcount, hle⟩ := hwRqCount_exact hreach 0
  exact ⟨st, hreach, flight, (hmem 1).mpr ⟨hsched, .inl hattached⟩, hcount, hle⟩

/-- A job is given to `free_job` once at most, and then its fences have signaled, it is on no queue
and no list, nothing will call back for it and nobody holds it. -/
theorem freed_once (h : Reached limit good st) (j : ℕ) : (st.jobs j).freed ≤ 1 ∧
    ((st.jobs j).finished → (st.jobs j).scheduled) ∧
    ((st.jobs j).freed = 1 → (st.jobs j).finished ∧ (st.jobs j).attached = false ∧
      (st.jobs j).killWait = none ∧ (∀ e, j ∉ (st.entities e).queue) ∧ (∀ s, j ∉ st.mirror s) ∧
      (∀ s a, (st.threads s).held ≠ some (j, a)) ∧
      ∀ e, (st.entities e).pusher.job ≠ some j) := by
  have hs := Reached.sound h
  obtain ⟨hscheduled, hfinished, hattached, hfreed, hkill⟩ := hs.flagged j
  have hqueued := fun e => hs.placed.queued e j
  have hmirrored := fun s => hs.placed.mirrored s j
  have hheld := fun s a => hs.linked.held s j a
  have hmade := fun e => hs.linked.made e j
  have hin := fun s a => @inHand_of_held (st.threads s) j a
  simp only [pipeline] at hqueued hmirrored
  refine ⟨?_, ?_, fun hone => ?_⟩
  · rw [hfreed]
    split <;> decide
  · rw [hfinished, hscheduled]
    cases (st.jobs j).stage <;> simp [Stage.isFinished, Stage.isScheduled]
  · have hstage : (st.jobs j).stage.isFreed := by
      by_contra hne
      rw [hfreed, if_neg hne] at hone
      cases hone
    cases hst : (st.jobs j).stage <;> simp [hst, Stage.isFreed] at hstage
    all_goals
      simp [hst, Stage.isFinished, Stage.onMirror] at hfinished hattached hkill hqueued hmirrored
      refine ⟨hfinished, hattached, hkill, hqueued, hmirrored, fun s a ha => ?_, fun e he => ?_⟩
      · have hhand := hin s a ha
        rw [← (hheld s a ha).1, hst] at hhand
        cases hhand
      · have hnew := (hmade e he).1
        rw [hst] at hnew
        cases hnew

theorem freed_once_served : ∃ st, Reached (fun _ => 2) (fun _ _ => True) st ∧
    (st.jobs 0).freed = 1 ∧ (st.jobs 0).finished = true ∧ ∀ s, 0 ∉ st.mirror s := by
  obtain ⟨st, hreach, -, -, -, hfreed, -⟩ := served_reached
  obtain ⟨hfinished, -, -, -, hmirror, -⟩ := (freed_once hreach 0).2.2 hfreed
  exact ⟨st, hreach, hfreed, hfinished, hmirror⟩

end State

end Gsgpu.Sched
