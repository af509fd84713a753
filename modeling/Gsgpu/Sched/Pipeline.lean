import Gsgpu.Lib.Run
import Mathlib.Data.List.Nodup
import Mathlib.Data.UInt

/-! What the GPU scheduler is for: jobs are queued by entities, taken from the front of a queue by a
scheduler, run, and finished, or else killed in the queue. How a scheduler finds the entity it takes
from, and what it waits for, is not said here. -/
namespace Gsgpu.Sched

/-- How far a job has come. -/
inductive Stage
  | unborn
  | made
  | queued
  | popped
  | counted
  | begun
  | ran
  | posted
  | attached
  | detached
  | finished
  | freed
  | dying
  | dead
deriving DecidableEq

namespace Stage

/-- In the hands of the thread of its scheduler. -/
def inHand : Stage → Bool
  | popped | counted | begun | ran | posted => true
  | _ => false

/-- Taken by the thread, and not yet run. -/
def beforeRun : Stage → Bool
  | popped | counted | begun => true
  | _ => false

/-- On the mirror list. -/
def onMirror : Stage → Bool
  | begun | ran | posted | attached | detached | finished => true
  | _ => false

/-- Counted in `hw_rq_count`. -/
def inFlight : Stage → Bool
  | counted | begun | ran | posted | attached => true
  | _ => false

/-- Its `scheduled` fence has signaled. -/
def isScheduled : Stage → Bool
  | posted | attached | detached | finished | freed | dying | dead => true
  | _ => false

/-- Its `finished` fence has signaled. -/
def isFinished : Stage → Bool
  | finished | freed | dead => true
  | _ => false

/-- Its memory was given back. -/
def isFreed : Stage → Bool
  | freed | dead => true
  | _ => false

/-- Given to `run_job`. -/
def hasRun : Stage → Bool
  | ran | posted | attached | detached | finished | freed => true
  | _ => false

end Stage

/-- The jobs of all entities and schedulers, numbered as they are made. `pushed`, `killed`, `taken`
and `ran` remember the order of what was done. -/
@[ext] structure Pipeline where
  next : ℕ
  entity : ℕ → ℕ
  sched : ℕ → ℕ
  stage : ℕ → Stage
  queue : ℕ → List ℕ
  hand : ℕ → Option ℕ
  mirror : ℕ → List ℕ
  hwRqCount : ℕ → UInt32
  hwSubmissionLimit : ℕ → UInt32
  pushed : ℕ → List ℕ
  killed : ℕ → List ℕ
  taken : List ℕ
  ran : List ℕ

namespace Pipeline

def setStage (p : Pipeline) (j : ℕ) (a : Stage) : Pipeline :=
  { p with stage := Function.update p.stage j a }

/-- No job was made. -/
def Initial (p : Pipeline) : Prop :=
  p.next = 0 ∧ (∀ j, p.stage j = .unborn) ∧ (∀ e, p.queue e = []) ∧ (∀ s, p.hand s = none) ∧
    (∀ s, p.mirror s = []) ∧ (∀ s, p.hwRqCount s = 0) ∧ (∀ e, p.pushed e = []) ∧
    (∀ e, p.killed e = []) ∧ p.taken = [] ∧ p.ran = []

/-- What is done to a job. -/
inductive Step (p : Pipeline) : Pipeline → Prop
  | make (e s : ℕ) : Step p
      { p.setStage p.next .made with
        next := p.next + 1
        entity := Function.update p.entity p.next e
        sched := Function.update p.sched p.next s }
  | push {e j : ℕ} (hj : p.stage j = .made) (he : p.entity j = e) (hlast : ∀ k ∈ p.pushed e, k < j) :
      Step p
      { p.setStage j .queued with
        queue := Function.update p.queue e (p.queue e ++ [j])
        pushed := Function.update p.pushed e (p.pushed e ++ [j]) }
  | take {s e j : ℕ} {rest : List ℕ} (hj : p.stage j = .queued) (he : p.entity j = e)
      (hq : p.queue e = j :: rest) (hs : p.sched j = s)
      (hhand : p.hand s = none) (hroom : p.hwRqCount s < p.hwSubmissionLimit s)
      (hkilled : p.killed e = []) (hlast : ∀ k, p.entity k = e → (p.stage k).beforeRun = false) :
      Step p
      { p.setStage j .popped with
        queue := Function.update p.queue e rest
        hand := Function.update p.hand s (some j)
        taken := p.taken ++ [j] }
  | count {j : ℕ} (hj : p.stage j = .popped) : Step p
      { p.setStage j .counted with
        hwRqCount := Function.update p.hwRqCount (p.sched j) (p.hwRqCount (p.sched j) + 1) }
  | begin {j : ℕ} (hj : p.stage j = .counted) : Step p
      { p.setStage j .begun with
        mirror := Function.update p.mirror (p.sched j) (p.mirror (p.sched j) ++ [j]) }
  | run {j : ℕ} (hj : p.stage j = .begun) : Step p
      { p.setStage j .ran with ran := p.ran ++ [j] }
  | post {j : ℕ} (hj : p.stage j = .ran) : Step p (p.setStage j .posted)
  | attach {j : ℕ} (hj : p.stage j = .posted) : Step p
      { p.setStage j .attached with hand := Function.update p.hand (p.sched j) none }
  | passed {j : ℕ} (hj : p.stage j = .posted) : Step p
      { p.setStage j .finished with
        hand := Function.update p.hand (p.sched j) none
        hwRqCount := Function.update p.hwRqCount (p.sched j) (p.hwRqCount (p.sched j) - 1) }
  | process {j : ℕ} (hj : p.stage j = .attached) : Step p
      { p.setStage j .finished with
        hwRqCount := Function.update p.hwRqCount (p.sched j) (p.hwRqCount (p.sched j) - 1) }
  | reset (s : ℕ) (lost : ℕ → Bool) : Step p
      { p with
        stage := fun j => if p.stage j = .attached ∧ p.sched j = s ∧ lost j then .detached
          else p.stage j
        hwRqCount := Function.update p.hwRqCount s (p.hwRqCount s -
          UInt32.ofNat ((p.mirror s).countP fun j => p.stage j = .attached ∧ lost j)) }
  | finish {j : ℕ} (hj : p.stage j = .finished) : Step p
      { p.setStage j .freed with
        mirror := Function.update p.mirror (p.sched j) ((p.mirror (p.sched j)).erase j) }
  | kill {e j : ℕ} {rest : List ℕ} (a : Stage) (ha : a = .dying ∨ a = .dead)
      (hj : p.stage j = .queued) (he : p.entity j = e) (hq : p.queue e = j :: rest) : Step p
      { p.setStage j a with
        queue := Function.update p.queue e rest
        killed := Function.update p.killed e (p.killed e ++ [j]) }
  | bury {j : ℕ} (hj : p.stage j = .dying) : Step p (p.setStage j .dead)

end Pipeline

end Gsgpu.Sched
