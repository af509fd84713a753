import Gsgpu.Lib.Run
import Mathlib.Data.List.Nodup

/-! `ttm_eu_reserve_buffers` for any number of calls at once, and what each does with its buffers
once it has them. The locks are those of the reservation objects, which several BOs may share. -/
namespace Gsgpu.Reserve

/-- Of an entry its BO and whether it is `shared`; of a BO its reservation object. -/
structure Buffers where
  bo : ℕ → ℕ
  shared : ℕ → Bool
  resv : ℕ → ℕ

def Buffers.lock (w : Buffers) (e : ℕ) : ℕ := w.resv (w.bo e)

inductive Errno
  | busy | already | deadlk | restartsys | nomem
deriving DecidableEq

/-- Who has a lock: a call, or someone with no ticket. -/
inductive Owner
  | call (i : ℕ)
  | other
deriving DecidableEq

/-- Where a call is: at the head of its loop, with the entries before and from the next one on; at
`cpu_writers` of an entry or its `reservation_object_reserve_shared`, the last also after the lock
was waited for; backing off, with what is left to unlock; at `ww_mutex_lock_slow`; returned, with or
without an error; in `ttm_eu_fence_buffer_objects` or `ttm_eu_backoff_reservation`. -/
inductive Phase
  | idle
  | lock (before rest : List ℕ)
  | writers (e : ℕ) (before rest : List ℕ)
  | share (e : ℕ) (slow : Bool) (before rest : List ℕ)
  | back (ret : Errno) (e : ℕ) (left before rest : List ℕ)
  | slow (e : ℕ) (before rest : List ℕ)
  | reserved (list : List ℕ)
  | failed (ret : Errno) (e : ℕ)
  | release (fence : Bool) (todo : List ℕ)
  | finished
deriving DecidableEq

/-- A call: the stamp of its ticket, whether it may be interrupted and was given a list for
duplicates, the list it was called with, and the duplicates so far. -/
structure Call where
  ticket : Option ℕ
  intr : Bool
  hasDups : Bool
  list : List ℕ
  dups : List ℕ
  phase : Phase

/-- By reservation object: its owner, whether a slot for a shared fence is reserved, and the calls
whose fences were added to it, with whether they are shared. By BO: `cpu_writers`, and whether it is
on its LRU list. -/
structure State where
  owner : ℕ → Option Owner
  slot : ℕ → Bool
  fences : ℕ → List (ℕ × Bool)
  cpuWriters : ℕ → ℕ
  lru : ℕ → Bool
  call : ℕ → Call
  next : ℕ

inductive Event
  | reserve (i : ℕ) (ticket intr dups : Bool) (list : List ℕ)
  | lock (i : ℕ) (signal : Bool)
  | writers (i : ℕ)
  | share (i : ℕ) (ok : Bool)
  | back (i : ℕ)
  | slow (i : ℕ) (signal : Bool)
  | finish (i : ℕ)
  | leave (i : ℕ) (fence : Bool)
  | unlock (i : ℕ) (noEvict : Bool)
  | grab (b : ℕ)
  | drop (b : ℕ)
  | take (l : ℕ)
  | put (l : ℕ) (slot : Bool)
  | touch (b : ℕ) (lru : Bool)

/-- Whose step it is. -/
def Event.mover : Event → Owner
  | .reserve i .. | .lock i _ | .writers i | .share i _ | .back i | .slow i _ | .finish i
  | .leave i _ | .unlock i _ => .call i
  | .grab _ | .drop _ | .take _ | .put .. | .touch .. => .other

namespace State

def setCall (st : State) (i : ℕ) (c : Call) : State :=
  { st with call := Function.update st.call i c }

def setPhase (st : State) (i : ℕ) (phase : Phase) : State :=
  st.setCall i { st.call i with phase := phase }

def setOwner (st : State) (l : ℕ) (o : Option Owner) : State :=
  { st with owner := Function.update st.owner l o }

/-- `__ttm_bo_reserve` for a lock: with what it returns, or `none` while it sleeps. -/
def boReserve (st : State) (i l : ℕ) (signal : Bool) : Option (Option Errno) :=
  match st.owner l, (st.call i).ticket with
  | none, _ => some none
  | some _, none => some (some .busy)
  | some o, some mine =>
    if o = .call i then some (some .already)
    else if signal && (st.call i).intr then some (some .restartsys)
    else
      match o with
      | .other => none
      | .call k =>
        match (st.call k).ticket with
        | some his => if his < mine then some (some .deadlk) else none
        | none => none

/-- The start of `ttm_eu_reserve_buffers`: no entry is on a list twice. -/
def reserve (st : State) (i : ℕ) (ticket intr dups : Bool) (list : List ℕ) : Option State :=
  if (st.call i).phase = .idle ∧ list.Nodup then
    if list = [] then some (st.setCall i ⟨none, intr, dups, [], [], .reserved []⟩)
    else if ticket then
      some { st.setCall i ⟨some st.next, intr, dups, list, [], .lock [] list⟩ with
        next := st.next + 1 }
    else some (st.setCall i ⟨none, intr, dups, list, [], .lock [] list⟩)
  else none

variable (w : Buffers)

/-- The next entry of the loop. -/
def lock (st : State) (i : ℕ) (signal : Bool) : Option State :=
  match (st.call i).phase with
  | .lock before (e :: rest) =>
    (st.boReserve i (w.lock e) signal).map fun ret =>
      match ret with
      | none => (st.setOwner (w.lock e) (some (.call i))).setPhase i (.writers e before rest)
      | some ret =>
        if ret = .already ∧ (st.call i).hasDups then
          st.setCall i { st.call i with
            dups := e :: (st.call i).dups
            phase := .lock before rest }
        else st.setPhase i (.back ret e before before rest)
  | _ => none

/-- The test of `cpu_writers`. -/
def writers (st : State) (i : ℕ) : Option State :=
  match (st.call i).phase with
  | .writers e before rest =>
    if 0 < st.cpuWriters (w.bo e) then
      some ((st.setOwner (w.lock e) none).setPhase i (.back .busy e before before rest))
    else if w.shared e then some (st.setPhase i (.share e false before rest))
    else some (st.setPhase i (.lock (before ++ [e]) rest))
  | _ => none

/-- `reservation_object_reserve_shared`. An entry whose lock was waited for is the first from then
on; where the slot of another is not reserved, its own lock is not among those that are dropped. -/
def share (st : State) (i : ℕ) (ok : Bool) : Option State :=
  match (st.call i).phase with
  | .share e slow before rest =>
    if ok then
      some ({ st with slot := Function.update st.slot (w.lock e) true }.setPhase i
        (if slow then .lock [e] (before ++ rest) else .lock (before ++ [e]) rest))
    else if slow then some (st.setPhase i (.failed .nomem e))
    else some (st.setPhase i (.back .nomem e before before rest))
  | _ => none

/-- The next entry of `ttm_eu_backoff_reservation_reverse`, or its end. -/
def back (st : State) (i : ℕ) : Option State :=
  match (st.call i).phase with
  | .back ret e left before rest =>
    match left.getLast? with
    | some x =>
      some ((st.setOwner (w.lock x) none).setPhase i (.back ret e left.dropLast before rest))
    | none =>
      if ret = .deadlk then some (st.setPhase i (.slow e before rest))
      else some (st.setPhase i (.failed ret e))
  | _ => none

/-- `ww_mutex_lock_slow` and `ww_mutex_lock_slow_interruptible`. -/
def slow (st : State) (i : ℕ) (signal : Bool) : Option State :=
  match (st.call i).phase with
  | .slow e before rest =>
    if (st.owner (w.lock e)).isNone then
      some ((st.setOwner (w.lock e) (some (.call i))).setPhase i
        (if w.shared e then .share e true before rest else .lock [e] (before ++ rest)))
    else if signal && (st.call i).intr then some (st.setPhase i (.failed .restartsys e))
    else none
  | _ => none

/-- The end of the loop, and `ttm_eu_del_from_lru_locked`. -/
def finish (st : State) (i : ℕ) : Option State :=
  match (st.call i).phase with
  | .lock before [] =>
    some ({ st with lru := fun b => st.lru b && !(before.map w.bo).contains b }.setPhase i
      (.reserved before))
  | _ => none

/-- The call of `ttm_eu_fence_buffer_objects` or `ttm_eu_backoff_reservation`. -/
def leave (st : State) (i : ℕ) (fence : Bool) : Option State :=
  match (st.call i).phase with
  | .reserved list => some (st.setPhase i (.release fence list))
  | _ => none

/-- `reservation_object_add_shared_fence`, which takes the slot, and
`reservation_object_add_excl_fence`. -/
def addFence (st : State) (i l : ℕ) (shared : Bool) : State :=
  { st with
    fences := Function.update st.fences l (st.fences l ++ [(i, shared)])
    slot := if shared then Function.update st.slot l false else st.slot }

/-- `ttm_bo_add_to_lru`. -/
def addToLru (st : State) (b : ℕ) (noEvict : Bool) : State :=
  if noEvict then st else { st with lru := Function.update st.lru b true }

/-- The next entry of one of these, or the end. -/
def unlock (st : State) (i : ℕ) (noEvict : Bool) : Option State :=
  match (st.call i).phase with
  | .release fence (e :: todo) =>
    let st := if fence then st.addFence i (w.lock e) (w.shared e) else st
    some (((st.addToLru (w.bo e) noEvict).setOwner (w.lock e) none).setPhase i
      (.release fence todo))
  | .release _ [] => some (st.setPhase i .finished)
  | _ => none

/-- `ttm_bo_synccpu_write_grab`, which reserves the BO while it counts itself. -/
def grab (st : State) (b : ℕ) : Option State :=
  if (st.owner (w.resv b)).isNone then
    some { st with cpuWriters := Function.update st.cpuWriters b (st.cpuWriters b + 1) }
  else none

/-- `ttm_bo_synccpu_write_release`. -/
def drop (st : State) (b : ℕ) : Option State :=
  if 0 < st.cpuWriters b then
    some { st with cpuWriters := Function.update st.cpuWriters b (st.cpuWriters b - 1) }
  else none

/-- `ttm_bo_reserve` without a ticket. -/
def take (st : State) (l : ℕ) : Option State :=
  if (st.owner l).isNone then some (st.setOwner l (some .other)) else none

/-- `ttm_bo_unreserve` of one who may have added a shared fence. -/
def put (st : State) (l : ℕ) (slot : Bool) : Option State :=
  if st.owner l = some .other then
    some ({ st with slot := Function.update st.slot l slot }.setOwner l none)
  else none

/-- One who has reserved a BO takes it off its LRU list or puts it there. -/
def touch (st : State) (b : ℕ) (lru : Bool) : Option State :=
  if st.owner (w.resv b) = some .other then
    some { st with lru := Function.update st.lru b lru }
  else none

def step (st : State) : Event → Option State
  | .reserve i ticket intr dups list => st.reserve i ticket intr dups list
  | .lock i signal => st.lock w i signal
  | .writers i => st.writers w i
  | .share i ok => st.share w i ok
  | .back i => st.back w i
  | .slow i signal => st.slow w i signal
  | .finish i => st.finish w i
  | .leave i fence => st.leave i fence
  | .unlock i noEvict => st.unlock w i noEvict
  | .grab b => st.grab w b
  | .drop b => st.drop b
  | .take l => st.take l
  | .put l slot => st.put l slot
  | .touch b lru => st.touch w b lru

/-- No call yet, and no lock taken. -/
def start : State where
  owner _ := none
  slot _ := false
  fences _ := []
  cpuWriters _ := 0
  lru _ := true
  call _ := ⟨none, false, false, [], [], .idle⟩
  next := 0

abbrev Reached : State → Prop :=
  Transition.Reach (· = start) (fun st ev st' => st.step w ev = some st') fun _ _ => True

end State
end Gsgpu.Reserve
