import Gsgpu.Lib.TokenBucket
import Mathlib.Algebra.Order.Group.Int
import Mathlib.Data.UInt

/-! How much a submission may move: the budget of `mm_stats` in microseconds, which grows with the
clock and shrinks with what was moved. Several submissions may be between the one and the other. -/
namespace Gsgpu.Throttle

open TokenBucket

/-- `mm_stats`. The counters are small enough not to overflow. -/
structure MmStats where
  log2MaxMBps : ℕ
  lastUpdateUs : ℤ
  accumUs : ℤ
  accumUsVis : ℤ

/-- What a call reads of the device: the sizes of VRAM and of its visible part, what of each is in
use, and whether it is an APU or all of VRAM is visible. -/
structure Reading where
  realVramSize : UInt64
  vramPinSize : UInt64
  usage : UInt64
  visibleVramSize : UInt64
  visUsage : UInt64
  fullVisible : Bool
  apu : Bool

def usUpperBound : ℤ := 200000

/-- `us_to_bytes`. -/
def MmStats.usToBytes (s : MmStats) (us : ℤ) : UInt64 :=
  if us ≤ 0 ∨ s.log2MaxMBps = 0 then 0 else UInt64.ofNat (us.toNat <<< s.log2MaxMBps)

/-- `bytes_to_us`. -/
def MmStats.bytesToUs (s : MmStats) (bytes : UInt64) : ℤ :=
  if s.log2MaxMBps = 0 then 0 else (bytes.toNat >>> s.log2MaxMBps : ℕ)

def Reading.totalVram (v : Reading) : UInt64 := v.realVramSize - v.vramPinSize

def Reading.freeVram (v : Reading) : UInt64 :=
  if v.usage ≥ v.totalVram then 0 else v.totalVram - v.usage

/-- 128 MB or an eighth of VRAM is free. -/
def Reading.plenty (v : Reading) : Bool :=
  v.freeVram ≥ 128 * 1024 * 1024 || v.freeVram ≥ v.totalVram / 8

/-- `gsgpu_cs_get_threshold_for_moves`: `max_bytes` and `max_vis_bytes`. -/
def MmStats.getThresholdForMoves (s : MmStats) (v : Reading) (timeUs : ℤ) :
    (UInt64 × UInt64) × MmStats :=
  if s.log2MaxMBps = 0 then ((0, 0), s)
  else
    let incrementUs := timeUs - s.lastUpdateUs
    let accumUs := min (s.accumUs + incrementUs) usUpperBound
    let accumUs :=
      if v.plenty then max (if v.apu then 0 else s.bytesToUs (v.freeVram / 4)) accumUs
      else accumUs
    let s := { s with lastUpdateUs := timeUs, accumUs := accumUs }
    if v.fullVisible then ((s.usToBytes s.accumUs, 0), s)
    else
      let s :=
        if v.visUsage < v.visibleVramSize then
          let freeVisVram := v.visibleVramSize - v.visUsage
          let accumUsVis := min (s.accumUsVis + incrementUs) usUpperBound
          { s with accumUsVis :=
              if freeVisVram ≥ v.visibleVramSize / 2 then
                max (s.bytesToUs (freeVisVram / 2)) accumUsVis
              else accumUsVis }
        else s
      ((s.usToBytes s.accumUs, s.usToBytes s.accumUsVis), s)

/-- `gsgpu_cs_report_moved_bytes`. -/
def MmStats.reportMovedBytes (s : MmStats) (numBytes numVisBytes : UInt64) : MmStats :=
  { s with
    accumUs := s.accumUs - s.bytesToUs numBytes
    accumUsVis := s.accumUsVis - s.bytesToUs numVisBytes }

inductive Event
  | threshold (v : Reading) (timeUs : ℤ)
  | report (numBytes numVisBytes : UInt64)

namespace MmStats

def step (s : MmStats) : Event → MmStats
  | .threshold v timeUs => (s.getThresholdForMoves v timeUs).2
  | .report numBytes numVisBytes => s.reportMovedBytes numBytes numVisBytes

def run (s : MmStats) (evs : List Event) : MmStats := evs.foldl step s

/-- What an event does to the bucket that `accum_us` is. -/
def ops (s : MmStats) : Event → List (Op ℤ)
  | .threshold v timeUs =>
    .fill (timeUs - s.lastUpdateUs) ::
      if v.plenty then [.raise (if v.apu then 0 else s.bytesToUs (v.freeVram / 4))] else []
  | .report numBytes _ => [.take (s.bytesToUs numBytes)]

def runOps (s : MmStats) : List Event → List (Op ℤ)
  | [] => []
  | ev :: evs => s.ops ev ++ (s.step ev).runOps evs

variable {s : MmStats} {ev : Event} {evs : List Event} {v : Reading} {timeUs : ℤ}

@[simp] theorem log2MaxMBps_threshold (s : MmStats) (v : Reading) (timeUs : ℤ) :
    (s.getThresholdForMoves v timeUs).2.log2MaxMBps = s.log2MaxMBps := by
  unfold getThresholdForMoves
  dsimp only
  repeat' split
  all_goals rfl

theorem lastUpdateUs_threshold (hlog : s.log2MaxMBps ≠ 0) (v : Reading) (timeUs : ℤ) :
    (s.getThresholdForMoves v timeUs).2.lastUpdateUs = timeUs := by
  unfold getThresholdForMoves
  rw [if_neg hlog]
  dsimp only
  repeat' split
  all_goals rfl

theorem accumUs_threshold (hlog : s.log2MaxMBps ≠ 0) (v : Reading) (timeUs : ℤ) :
    (s.getThresholdForMoves v timeUs).2.accumUs =
      level usUpperBound s.accumUs (s.ops (.threshold v timeUs)) := by
  have hops : level usUpperBound s.accumUs (s.ops (.threshold v timeUs)) =
      if v.plenty then max (if v.apu then 0 else s.bytesToUs (v.freeVram / 4))
        (min (s.accumUs + (timeUs - s.lastUpdateUs)) usUpperBound)
      else min (s.accumUs + (timeUs - s.lastUpdateUs)) usUpperBound := by
    cases hplenty : v.plenty <;> simp [level, ops, Op.run, hplenty]
  rw [hops]
  unfold getThresholdForMoves
  rw [if_neg hlog]
  dsimp only
  split
  · rfl
  · split <;> rfl

/-- The bytes that may be moved are what the bucket holds. -/
theorem threshold_eq (hlog : s.log2MaxMBps ≠ 0) (v : Reading) (timeUs : ℤ) :
    (s.getThresholdForMoves v timeUs).1.1 =
      s.usToBytes (s.getThresholdForMoves v timeUs).2.accumUs := by
  unfold getThresholdForMoves
  rw [if_neg hlog]
  dsimp only
  split
  · rfl
  · split <;> rfl

@[simp] theorem log2MaxMBps_step (s : MmStats) (ev : Event) :
    (s.step ev).log2MaxMBps = s.log2MaxMBps := by
  cases ev with
  | threshold v timeUs => exact log2MaxMBps_threshold s v timeUs
  | report numBytes numVisBytes => rfl

/-- A step does to `accum_us` what a bucket does. -/
theorem accumUs_step (hlog : s.log2MaxMBps ≠ 0) (ev : Event) :
    (s.step ev).accumUs = level usUpperBound s.accumUs (s.ops ev) := by
  cases ev with
  | threshold v timeUs => exact accumUs_threshold hlog v timeUs
  | report numBytes numVisBytes => rfl

/-- A run does to `accum_us` what a bucket does. -/
theorem accumUs_run (hlog : s.log2MaxMBps ≠ 0) (evs : List Event) :
    (s.run evs).accumUs = level usUpperBound s.accumUs (s.runOps evs) := by
  induction evs generalizing s with
  | nil => rfl
  | cons ev evs ih =>
    change ((s.step ev).run evs).accumUs = _
    rw [ih (by simpa using hlog), accumUs_step hlog, runOps, level_append]

/-- The microseconds that were reported as moved. -/
def moved (s : MmStats) (evs : List Event) : ℤ :=
  (evs.map fun
    | .threshold _ _ => 0
    | .report numBytes _ => s.bytesToUs numBytes).sum

theorem moved_step (s : MmStats) (ev : Event) (evs : List Event) :
    (s.step ev).moved evs = s.moved evs := by
  unfold moved bytesToUs
  rw [log2MaxMBps_step]

theorem moved_run (s : MmStats) (pre evs : List Event) : (s.run pre).moved evs = s.moved evs := by
  induction pre generalizing s with
  | nil => rfl
  | cons ev pre ih => exact (ih (s.step ev)).trans (moved_step s ev evs)

theorem log2MaxMBps_run (s : MmStats) (evs : List Event) :
    (s.run evs).log2MaxMBps = s.log2MaxMBps := by
  induction evs generalizing s with
  | nil => rfl
  | cons ev evs ih => exact (ih (s.step ev)).trans (log2MaxMBps_step s ev)

/-- The bucket is filled with the time that passes. -/
theorem net_runOps (hlog : s.log2MaxMBps ≠ 0) (evs : List Event) :
    net (s.runOps evs) = (s.run evs).lastUpdateUs - s.lastUpdateUs - s.moved evs := by
  induction evs generalizing s with
  | nil => simp [runOps, net, run, moved]
  | cons ev evs ih =>
    have hrest := ih (s := s.step ev) (by simpa using hlog)
    rw [moved_step] at hrest
    change net (s.ops ev ++ (s.step ev).runOps evs) =
      ((s.step ev).run evs).lastUpdateUs - s.lastUpdateUs - s.moved (ev :: evs)
    rw [net_append, hrest]
    cases ev with
    | threshold v timeUs =>
      have hlast : (s.step (.threshold v timeUs)).lastUpdateUs = timeUs :=
        lastUpdateUs_threshold hlog v timeUs
      have hnet : net (s.ops (.threshold v timeUs)) = timeUs - s.lastUpdateUs := by
        cases hplenty : v.plenty <;> simp [ops, net, Op.net, hplenty]
      rw [hlast, hnet]
      simp only [moved, List.map_cons, List.sum_cons]
      omega
    | report numBytes numVisBytes =>
      have hlast : (s.step (.report numBytes numVisBytes)).lastUpdateUs = s.lastUpdateUs := rfl
      rw [hlast]
      simp only [ops, net, Op.net, moved, List.map_cons, List.map_nil, List.sum_cons, List.sum_nil]
      omega

end MmStats

/-- It does not find VRAM mostly free. -/
def Event.scarce : Event → Bool
  | .threshold v _ => !v.plenty
  | .report _ _ => true

namespace MmStats

variable {s : MmStats} {evs : List Event}

theorem run_append (s : MmStats) (pre suf : List Event) :
    s.run (pre ++ suf) = (s.run pre).run suf := List.foldl_append ..

/-- The clock is that of the last call that asked for a threshold. -/
theorem lastUpdateUs_run_threshold (hlog : s.log2MaxMBps ≠ 0) (evs : List Event) (v : Reading)
    (timeUs : ℤ) : (s.run (evs ++ [.threshold v timeUs])).lastUpdateUs = timeUs := by
  have hlog' : (s.run evs).log2MaxMBps ≠ 0 := by rwa [log2MaxMBps_run]
  rw [run_append]
  exact lastUpdateUs_threshold hlog' v timeUs

theorem runOps_append (s : MmStats) (pre suf : List Event) :
    s.runOps (pre ++ suf) = s.runOps pre ++ (s.run pre).runOps suf := by
  induction pre generalizing s with
  | nil => rfl
  | cons ev pre ih =>
    simp only [List.cons_append, runOps, ih, List.append_assoc]
    rfl

theorem runOps_scarce (hscarce : ∀ ev ∈ evs, ev.scarce) :
    ∀ op ∈ s.runOps evs, op.raises = false := by
  induction evs generalizing s with
  | nil => simp [runOps]
  | cons ev evs ih =>
    intro op hop
    obtain hop | hop := List.mem_append.mp hop
    · have hev := hscarce ev (by simp)
      cases ev with
      | threshold v timeUs =>
        simp only [Event.scarce, Bool.not_eq_true'] at hev
        simp only [ops, hev, Bool.false_eq_true, if_false, List.mem_singleton] at hop
        rw [hop]
        rfl
      | report numBytes numVisBytes =>
        rw [List.mem_singleton.mp hop]
        rfl
    · exact ih (fun e he => hscarce e (by simp [he])) op hop

/-- The bucket is filled only by a call that asks for a threshold. -/
theorem runOps_fill (hscarce : ∀ ev ∈ evs, ev.scarce) {pre suf : List (Op ℤ)} {d : ℤ}
    (hsplit : s.runOps evs = pre ++ .fill d :: suf) :
    ∃ evs₁ v timeUs evs₂, evs = evs₁ ++ .threshold v timeUs :: evs₂ ∧
      suf = (s.run (evs₁ ++ [.threshold v timeUs])).runOps evs₂ := by
  induction evs generalizing s pre with
  | nil => simp [runOps] at hsplit
  | cons ev evs ih =>
    have hone : ∃ op, s.ops ev = [op] := by
      have hev := hscarce ev (by simp)
      cases ev with
      | threshold v timeUs =>
        simp only [Event.scarce, Bool.not_eq_true'] at hev
        exact ⟨.fill (timeUs - s.lastUpdateUs), by simp [ops, hev]⟩
      | report numBytes numVisBytes => exact ⟨_, rfl⟩
    obtain ⟨op, hop⟩ := hone
    rw [runOps, hop, List.singleton_append] at hsplit
    cases pre with
    | nil =>
      obtain ⟨rfl, hsuf⟩ := List.cons.inj hsplit
      cases ev with
      | threshold v timeUs => exact ⟨[], v, timeUs, evs, rfl, hsuf.symm⟩
      | report numBytes numVisBytes => simp [ops] at hop
    | cons op' pre =>
      obtain ⟨-, hrest⟩ := List.cons.inj hsplit
      obtain ⟨evs₁, v, timeUs, evs₂, rfl, hsuf⟩ := ih (fun e he => hscarce e (by simp [he])) hrest
      exact ⟨ev :: evs₁, v, timeUs, evs₂, rfl, hsuf⟩

/-- What has been filled in since a call that asked for a threshold. -/
theorem net_since (hlog : s.log2MaxMBps ≠ 0) (evs₁ evs₂ : List Event) (v : Reading) (timeUs : ℤ) :
    net ((s.run (evs₁ ++ [.threshold v timeUs])).runOps evs₂) =
      (s.run (evs₁ ++ .threshold v timeUs :: evs₂)).lastUpdateUs - timeUs - s.moved evs₂ := by
  have hlog' : (s.run (evs₁ ++ [.threshold v timeUs])).log2MaxMBps ≠ 0 := by
    rwa [log2MaxMBps_run]
  have hrun : (s.run (evs₁ ++ [.threshold v timeUs])).run evs₂ =
      s.run (evs₁ ++ .threshold v timeUs :: evs₂) := by
    rw [← run_append, List.append_assoc, List.singleton_append]
  rw [net_runOps hlog', lastUpdateUs_run_threshold hlog, hrun, moved_run]

theorem accumUs_bounds (hlog : s.log2MaxMBps ≠ 0) (hscarce : ∀ ev ∈ evs, ev.scarce) :
    (s.run evs).accumUs ≤
        s.accumUs + ((s.run evs).lastUpdateUs - s.lastUpdateUs - s.moved evs) ∧
      ∀ evs₁ v timeUs evs₂, evs = evs₁ ++ .threshold v timeUs :: evs₂ →
        (s.run evs).accumUs ≤
          usUpperBound + ((s.run evs).lastUpdateUs - timeUs - s.moved evs₂) := by
  have hraises := runOps_scarce (s := s) hscarce
  constructor
  · rw [accumUs_run hlog, ← net_runOps hlog]
    exact level_le hraises
  · rintro evs₁ v timeUs evs₂ rfl
    have hplenty : v.plenty = false := by simpa [Event.scarce] using hscarce (.threshold v timeUs)
    have hsplit : s.runOps (evs₁ ++ .threshold v timeUs :: evs₂) =
        s.runOps evs₁ ++ .fill (timeUs - (s.run evs₁).lastUpdateUs) ::
          (s.run (evs₁ ++ [.threshold v timeUs])).runOps evs₂ := by
      rw [runOps_append, run_append]
      simp only [runOps, ops, hplenty, Bool.false_eq_true, if_false, List.singleton_append]
      rfl
    rw [accumUs_run hlog, ← net_since hlog, hsplit]
    apply level_le_cap
    intro op hop
    exact hraises op (by simp [hsplit, hop])

/-- As long as VRAM is scarce, the budget is the time that passed less the time that was spent on
moves, since the start on top of what there was then, or since a call on top of the upper bound: the
least of these. A debt is paid back before anything is moved at will. -/
theorem accumUs_exact (hlog : s.log2MaxMBps ≠ 0) (hscarce : ∀ ev ∈ evs, ev.scarce) :
    (s.run evs).accumUs ≤
        s.accumUs + ((s.run evs).lastUpdateUs - s.lastUpdateUs - s.moved evs) ∧
      (∀ evs₁ v timeUs evs₂, evs = evs₁ ++ .threshold v timeUs :: evs₂ →
        (s.run evs).accumUs ≤
          usUpperBound + ((s.run evs).lastUpdateUs - timeUs - s.moved evs₂)) ∧
      ((s.run evs).accumUs =
          s.accumUs + ((s.run evs).lastUpdateUs - s.lastUpdateUs - s.moved evs) ∨
        ∃ evs₁ v timeUs evs₂, evs = evs₁ ++ .threshold v timeUs :: evs₂ ∧
          (s.run evs).accumUs =
            usUpperBound + ((s.run evs).lastUpdateUs - timeUs - s.moved evs₂)) := by
  obtain ⟨hstart, hcap⟩ := accumUs_bounds hlog hscarce
  refine ⟨hstart, hcap, ?_⟩
  rw [accumUs_run hlog, ← net_runOps hlog]
  have hattained : level usUpperBound s.accumUs (s.runOps evs) = s.accumUs + net (s.runOps evs) ∨
      ∃ pre d suf, s.runOps evs = pre ++ .fill d :: suf ∧
        level usUpperBound s.accumUs (s.runOps evs) = usUpperBound + net suf :=
    level_attained (runOps_scarce hscarce)
  obtain hall | ⟨pre, d, suf, hsplit, hsuf⟩ := hattained
  · exact .inl hall
  · obtain ⟨evs₁, v, timeUs, evs₂, rfl, rfl⟩ := runOps_fill hscarce hsplit
    right
    refine ⟨evs₁, v, timeUs, evs₂, rfl, ?_⟩
    rw [hsuf, net_since hlog]

/-- While there is less time than was spent on moves, nothing may be moved at will. -/
theorem threshold_in_debt (hlog : s.log2MaxMBps ≠ 0) (hscarce : ∀ ev ∈ evs, ev.scarce)
    {v : Reading} (hv : v.plenty = false) {timeUs : ℤ}
    (hdebt : s.accumUs + (timeUs - s.lastUpdateUs) ≤ s.moved evs) :
    ((s.run evs).getThresholdForMoves v timeUs).1.1 = 0 := by
  have hlog' : (s.run evs).log2MaxMBps ≠ 0 := by rwa [log2MaxMBps_run]
  have hmoved : s.moved (evs ++ [.threshold v timeUs]) = s.moved evs := by simp [moved]
  have hall : ∀ ev ∈ evs ++ [.threshold v timeUs], ev.scarce := by
    intro ev hev
    obtain hev | hev := List.mem_append.mp hev
    · exact hscarce ev hev
    · rw [List.mem_singleton.mp hev]
      simp [Event.scarce, hv]
  have hle := (accumUs_bounds hlog hall).1
  rw [lastUpdateUs_run_threshold hlog, hmoved] at hle
  have hrun : (s.run (evs ++ [.threshold v timeUs])).accumUs =
      ((s.run evs).getThresholdForMoves v timeUs).2.accumUs := by
    rw [run_append]
    rfl
  rw [threshold_eq hlog', ← hrun, usToBytes, if_pos (.inl (by omega))]

/-- Two submissions while VRAM is full, the first of which moves more than it may. -/
def overdrawn : List Event :=
  let full : Reading := ⟨1000, 0, 1000, 1000, 1000, true, false⟩
  [.threshold full 50, .report 4000 0, .threshold full 100]

theorem accumUs_exact_overdrawn : (run ⟨3, 0, 0, 0⟩ overdrawn).accumUs = -400 ∧
    (run ⟨3, 0, 0, 0⟩ overdrawn).accumUs ≤
      0 + ((run ⟨3, 0, 0, 0⟩ overdrawn).lastUpdateUs - 0 - moved ⟨3, 0, 0, 0⟩ overdrawn) :=
  ⟨by decide, (accumUs_exact (by decide) (by decide)).1⟩

end MmStats
end Gsgpu.Throttle
