import Gsgpu.Basic
import Gsgpu.Lib.Run

/-! The fence driver of a ring. Fences are numbered by a 32-bit counter that wraps, and wait for
the hardware in a power-of-two array of slots that their numbers index. Any number of runs of
`gsgpu_fence_process` claim ranges of numbers with a compare-and-swap on `last_seq` and then walk
over the slots of their range without a lock, while the ring's single submitter emits fences. -/
namespace Gsgpu.FenceDriver

/-- Where a call of `gsgpu_fence_emit` stands, with its sequence number and its fence. A fence is
identified by how many were emitted with it, which is also its sequence number until that wraps. -/
inductive Emit
  | idle
  | look (seq : UInt32) (fence : ℕ)
  | get (seq : UInt32) (fence : ℕ)
  | wait (seq : UInt32) (fence old : ℕ)
  | assign (seq : UInt32) (fence : ℕ)
deriving DecidableEq

/-- Where a run of `gsgpu_fence_process` stands, with its locals; from `load` on they are masked. -/
inductive Pc
  | start
  | readHw (lastSeq : UInt32)
  | xchg (lastSeq seq : UInt32)
  | load (lastSeq seq : UInt32)
  | clear (lastSeq seq : UInt32) (fence : Option ℕ)
  | signal (lastSeq seq : UInt32) (fence : ℕ)
  | done
deriving DecidableEq

/-- A run of `gsgpu_fence_process`. Remembered here only: the numbers, without wrapping, that
`last_seq` and the hardware's value stood for when it read them, the number it is at, and how
many runs had started when its compare-and-swap succeeded. -/
structure Run where
  pc : Pc
  readAt : ℕ
  seen : ℕ
  pos : ℕ
  horizon : ℕ
deriving DecidableEq

/-- `struct gsgpu_fence_driver` with the calls under way. `hw` is the value at `cpu_addr`, and
`signaled` what the fences know themselves; `bug` is set where the code reaches `BUG()`. The
counters without wrapping come last: fences emitted, those on the ring that the hardware was told
of, the last number it wrote, the last number claimed, and which run claimed a number. -/
structure State where
  syncSeq : UInt32
  lastSeq : UInt32
  hw : UInt32
  numFencesMask : UInt32
  numFences : ℕ
  fences : ℕ → Option ℕ
  signaled : ℕ → Bool
  bug : Bool
  emit : Emit
  runs : ℕ → Run
  started : ℕ
  emitted : ℕ
  committed : ℕ
  written : ℕ
  claimed : ℕ
  owner : ℕ → ℕ

/-- `gsgpu_fence_driver_init_ring` and `gsgpu_fence_driver_start_ring`; `allocOk` is the outcome
of `kcalloc`. -/
def initRing (numHwSubmission : UInt32) (allocOk : Bool) : Except Errno State :=
  if numHwSubmission &&& (numHwSubmission - 1) ≠ 0 then .error .einval
  else if !allocOk then .error .enomem
  else .ok {
    syncSeq := 0
    lastSeq := 0
    hw := 0
    numFencesMask := numHwSubmission * 2 - 1
    numFences := (numHwSubmission * 2).toNat
    fences := fun _ => none
    signaled := fun _ => false
    bug := false
    emit := .idle
    runs := fun _ => ⟨.start, 0, 0, 0, 0⟩
    started := 0
    emitted := 0
    committed := 0
    written := 0
    claimed := 0
    owner := fun _ => 0 }

/-- The slot of a sequence number. -/
def State.slot (s : State) (seq : UInt32) : ℕ := (seq &&& s.numFencesMask).toNat

/-- The first step of `gsgpu_fence_emit`, up to the packet on the ring. -/
def State.emitBegin (s : State) (allocOk : Bool) : Option State :=
  match s.emit with
  | .idle =>
    if allocOk then
      some { s with
        syncSeq := s.syncSeq + 1
        emit := .look (s.syncSeq + 1) (s.emitted + 1)
        emitted := s.emitted + 1 }
    else some s
  | _ => none

/-- The next step of `gsgpu_fence_emit`. The wait cannot be interrupted, so it ends when the old
fence has signaled, and without an error. -/
def State.emitStep (s : State) : Option State :=
  match s.emit with
  | .idle => none
  | .look seq fence =>
    match s.fences (s.slot seq) with
    | none => some { s with emit := .assign seq fence }
    | some _ => some { s with emit := .get seq fence }
  | .get seq fence =>
    match s.fences (s.slot seq) with
    | none => some { s with emit := .assign seq fence }
    | some old => some { s with emit := .wait seq fence old }
  | .wait seq fence old =>
    if s.signaled old then some { s with emit := .assign seq fence } else none
  | .assign seq fence =>
    some { s with
      fences := Function.update s.fences (s.slot seq) (some fence)
      emit := .idle }

/-- `gsgpu_ring_commit`, by the submitter: from now on the hardware sees the packets. -/
def State.commit (s : State) : Option State :=
  match s.emit with
  | .idle => some { s with committed := s.emitted }
  | _ => none

/-- The hardware writes a later number than the last. It may leave some out: `gsgpu_ring_undo`
takes a packet off the ring again. -/
def State.hwWrite (s : State) (k : ℕ) : Option State :=
  if s.written < k ∧ k ≤ s.committed then some { s with hw := UInt32.ofNat k, written := k }
  else none

/-- The condition at the end of the loop over the slots. -/
def Pc.test (lastSeq seq : UInt32) : Pc := if lastSeq ≠ seq then .load lastSeq seq else .done

def State.setRun (s : State) (i : ℕ) (r : Run) : State :=
  { s with runs := Function.update s.runs i r }

/-- A run is started, by an interrupt, the fallback timer or `gsgpu_fence_count_emitted`. -/
def State.processBegin (s : State) : State :=
  { s.setRun s.started ⟨.start, 0, 0, 0, 0⟩ with started := s.started + 1 }

/-- The compare-and-swap of run `i`. When it fails the run reads both values again. -/
def State.cmpxchg (s : State) (i : ℕ) (lastSeq seq : UInt32) : State :=
  let r := s.runs i
  if s.lastSeq ≠ lastSeq then s.setRun i { r with pc := .start }
  else if seq = lastSeq then
    s.setRun i { r with pc := .done, horizon := s.started }
  else
    let claimed := s.claimed + (seq - lastSeq).toNat
    { s.setRun i { r with
        pc := .load (lastSeq &&& s.numFencesMask) (seq &&& s.numFencesMask)
        pos := s.claimed
        horizon := s.started } with
      lastSeq := seq
      claimed := claimed
      owner := fun k => if s.claimed < k ∧ k ≤ claimed then i else s.owner k }

/-- The next step of run `i` of `gsgpu_fence_process`. -/
def State.processStep (s : State) (i : ℕ) : Option State :=
  let r := s.runs i
  if s.started ≤ i then none
  else match r.pc with
    | .start => some (s.setRun i { r with pc := .readHw s.lastSeq, readAt := s.claimed })
    | .readHw lastSeq => some (s.setRun i { r with pc := .xchg lastSeq s.hw, seen := s.written })
    | .xchg lastSeq seq => some (s.cmpxchg i lastSeq seq)
    | .load lastSeq seq =>
      let lastSeq := (lastSeq + 1) &&& s.numFencesMask
      some (s.setRun i { r with
        pc := .clear lastSeq seq (s.fences lastSeq.toNat)
        pos := r.pos + 1 })
    | .clear lastSeq seq fence =>
      let s := { s with fences := Function.update s.fences lastSeq.toNat none }
      match fence with
      | none => some (s.setRun i { r with pc := .test lastSeq seq })
      | some f => some (s.setRun i { r with pc := .signal lastSeq seq f })
    | .signal lastSeq seq fence =>
      some { s.setRun i { r with pc := .test lastSeq seq } with
        signaled := Function.update s.signaled fence true
        bug := s.bug || s.signaled fence }
    | .done => none

inductive Event
  | emitBegin (allocOk : Bool)
  | emitStep
  | commit
  | hwWrite (k : ℕ)
  | processBegin
  | processStep (i : ℕ)

def State.step (s : State) : Event → Option State
  | .emitBegin allocOk => s.emitBegin allocOk
  | .emitStep => s.emitStep
  | .commit => s.commit
  | .hwWrite k => s.hwWrite k
  | .processBegin => some s.processBegin
  | .processStep i => s.processStep i

/-- No compare-and-swap moves a `last_seq` that only looks as it did when the run read it: between
the two it has not gone around all 32-bit values. -/
def Event.NotAround (s : State) : Event → Prop
  | .processStep i => ∀ lastSeq seq, (s.runs i).pc = .xchg lastSeq seq → s.lastSeq = lastSeq →
      seq ≠ lastSeq → s.claimed = (s.runs i).readAt
  | _ => True

/-- The states of a ring with some number of hardware submissions, when all steps meet `good`. -/
def State.Reachable (numHwSubmission : UInt32) (good : State → Event → Prop) (s : State) : Prop :=
  Transition.Reach (fun s => initRing numHwSubmission true = .ok s)
    (fun s e s' => s.step e = some s') good s

end Gsgpu.FenceDriver
