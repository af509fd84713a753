import Gsgpu.Basic
import Gsgpu.Lib.Cursor
import Gsgpu.Lib.Run

/-! The suballocator that indirect buffers come from. A manager keeps the regions of its buffer
that are in use, in the order of their offsets, with a hole that it tries to allocate from and that
moves on when it is too small. A region that is freed with a fence stays until the fence has
signaled, and is queued in one of 32 lists until someone finds it. -/
namespace Gsgpu.Suballoc

open Cursor

/-- A value kept in an `unsigned`. -/
def u32 (n : ℕ) : ℕ := n % 2 ^ 32

/-- The difference of two `unsigned`. -/
def u32Sub (a b : ℕ) : ℕ := u32 (a + 2 ^ 32 - b)

structure Fence where
  context : ℕ
  seqno : ℕ
deriving DecidableEq

/-- `struct gsgpu_sa_bo`; `id` stands for its address. The alignment it was asked for is
remembered here only. -/
structure SaBo where
  id : ℕ
  soffset : ℕ
  eoffset : ℕ
  fence : Option Fence
  align : ℕ
deriving DecidableEq

/-- `GSGPU_SA_NUM_FENCE_LISTS`. -/
def numFenceLists : ℕ := 32

/-- `struct gsgpu_sa_manager`. The hole is right behind a region, or at the head of the list. -/
structure Manager where
  size : ℕ
  align : ℕ
  olist : List SaBo
  hole : Option ℕ
  flist : ℕ → List ℕ

namespace Manager

/-- `gsgpu_sa_bo_manager_init`. -/
def init (size align : ℕ) : Manager := ⟨size, align, [], none, fun _ => []⟩

/-- `gsgpu_sa_bo_remove_locked`. -/
def removeLocked (m : Manager) (id : ℕ) : Manager :=
  { m with
    hole := if m.hole = some id then prev SaBo.id m.olist id else m.hole
    olist := remove SaBo.id m.olist id
    flist := fun i => (m.flist i).filter fun k => k ≠ id }

/-- The loop of `gsgpu_sa_bo_try_free` over the regions behind the hole. -/
def tryFreeFrom (isSignaled : Fence → Bool) : List SaBo → Manager → Manager
  | [], m => m
  | bo :: bos, m =>
    match bo.fence with
    | none => m
    | some f => if isSignaled f then tryFreeFrom isSignaled bos (m.removeLocked bo.id) else m

/-- `gsgpu_sa_bo_try_free`. -/
def tryFree (m : Manager) (isSignaled : Fence → Bool) : Manager :=
  tryFreeFrom isSignaled (after SaBo.id m.olist m.hole) m

/-- `gsgpu_sa_bo_hole_soffset`. -/
def holeSoffset (m : Manager) : ℕ :=
  match at? SaBo.id m.olist m.hole with
  | some bo => bo.eoffset
  | none => 0

/-- `gsgpu_sa_bo_hole_eoffset`. -/
def holeEoffset (m : Manager) : ℕ :=
  match after SaBo.id m.olist m.hole with
  | bo :: _ => bo.soffset
  | [] => m.size

/-- `gsgpu_sa_bo_try_alloc`, for a new region `id`; `none` when nothing fits. -/
def tryAlloc (m : Manager) (id size align : ℕ) : Option Manager :=
  let soffset := m.holeSoffset
  let eoffset := m.holeEoffset
  let wasted := (align - soffset % align) % align
  if u32 (size + wasted) ≤ u32Sub eoffset soffset then
    let soffset := u32 (soffset + wasted)
    some { m with
      olist := insertAfter SaBo.id ⟨id, soffset, u32 (soffset + size), none, align⟩ m.olist m.hole
      hole := some id }
  else none

/-- What the loop of `gsgpu_sa_bo_next_hole` has found so far. -/
structure Search where
  best : ℕ
  bestBo : Option SaBo
  fences : ℕ → Option Fence

/-- How far behind the hole a region is. -/
def distance (m : Manager) (bo : SaBo) : ℕ :=
  -- wrap around, pretend it's after
  let tmp := if bo.soffset < m.holeSoffset then u32 (bo.soffset + m.size) else bo.soffset
  u32Sub tmp m.holeSoffset

/-- The body of the loop of `gsgpu_sa_bo_next_hole`, for list `i`. A region is in a list only with
its fence. -/
def searchList (m : Manager) (isSignaled : Fence → Bool) (tries : ℕ → ℕ) (acc : Search) (i : ℕ) :
    Search :=
  match (m.flist i).head?.bind fun id => m.olist.find? fun bo => bo.id = id with
  | none => acc
  | some bo =>
    match bo.fence with
    | none => acc
    | some f =>
      if !isSignaled f then { acc with fences := Function.update acc.fences i (some f) }
      -- limit the number of tries each ring gets
      else if tries i > 2 then acc
      else if m.distance bo < acc.best then
        { acc with best := m.distance bo, bestBo := some bo }
      else acc

def search (m : Manager) (isSignaled : Fence → Bool) (tries : ℕ → ℕ) (fences : ℕ → Option Fence) :
    Search :=
  (List.range numFenceLists).foldl (m.searchList isSignaled tries) ⟨u32 (m.size * 2), none, fences⟩

/-- `gsgpu_sa_bo_next_hole`: whether there is another hole to try, and the fences and tries. -/
def nextHole (m : Manager) (isSignaled : Fence → Bool) (fences : ℕ → Option Fence)
    (tries : ℕ → ℕ) : Bool × Manager × (ℕ → Option Fence) × (ℕ → ℕ) :=
  if after SaBo.id m.olist m.hole = [] then
    -- try again with the beginning of the buffer
    (true, { m with hole := none }, fences, tries)
  else
    let found := m.search isSignaled tries fences
    match found.bestBo with
    | none => (false, m, found.fences, tries)
    | some bo =>
      let idx := (bo.fence.elim 0 Fence.context) % numFenceLists
      let m := { m with hole := prev SaBo.id m.olist bo.id }
      (true, m.removeLocked bo.id, found.fences, Function.update tries idx (tries idx + 1))

/-- `gsgpu_sa_bo_free` of a region; `signaled` tells whether the fence has been seen signaled. -/
def free (m : Manager) (id : ℕ) (fence : Option Fence) (signaled : Bool) : Manager :=
  match fence, signaled with
  | some f, false =>
    { m with
      olist := m.olist.map fun bo => if bo.id = id then { bo with fence := some f } else bo
      flist := Function.update m.flist (f.context % numFenceLists)
        (m.flist (f.context % numFenceLists) ++ [id]) }
  | _, _ => m.removeLocked id

end Manager

/-- Where a call of `gsgpu_sa_bo_new` stands that has the lock. -/
inductive Pc
  | tryFree
  | tryAlloc
  | nextHole
deriving DecidableEq

/-- A call of `gsgpu_sa_bo_new` that has the lock, with its locals. -/
structure Call where
  size : ℕ
  align : ℕ
  fences : ℕ → Option Fence
  tries : ℕ → ℕ
  pc : Pc

/-- A region that was returned, and how it was freed. -/
structure Region where
  soffset : ℕ
  eoffset : ℕ
  align : ℕ
  freed : Option (Option Fence)

/-- A manager, the call that has its lock, the fences that have signaled, and all regions that were
returned, the next one being `nextId`. -/
structure State where
  manager : Manager
  call : Option Call
  signaled : Fence → Bool
  nextId : ℕ
  regions : ℕ → Option Region

inductive Event
  | new (size align : ℕ) (allocOk : Bool)
  | tryFree (isSignaled : Fence → Bool)
  | tryAlloc
  | nextHole (isSignaled : Fence → Bool)
  | free (id : ℕ) (fence : Option Fence) (signaled : Bool)
  | signal (f : Fence)

/-- `gsgpu_sa_bo_new` up to the lock. A call that gave up the lock to wait starts over here. An
alignment of zero is not refused, but divided by, which stops the machine. -/
def State.new (s : State) (size align : ℕ) (allocOk : Bool) : Option State :=
  if s.manager.align < align then some s
  else if s.manager.size < size then some s
  else if !allocOk then some s
  else if s.call.isSome ∨ align = 0 then none
  else some { s with call := some ⟨size, align, fun _ => none, fun _ => 0, .tryFree⟩ }

/-- One step. The calls in a locked section of `gsgpu_sa_bo_new` follow each other; fences signal
meanwhile, so each call sees some of those that have. -/
def State.step (s : State) : Event → Option State
  | .new size align allocOk => s.new size align allocOk
  | .tryFree isSignaled =>
    match s.call with
    | some c =>
      if c.pc = .tryFree then
        some { s with
          manager := s.manager.tryFree isSignaled
          call := some { c with pc := .tryAlloc } }
      else none
    | none => none
  | .tryAlloc =>
    match s.call with
    | some c =>
      if c.pc = .tryAlloc then
        match s.manager.tryAlloc s.nextId c.size c.align with
        | some m =>
          some { s with
            manager := m
            call := none
            nextId := s.nextId + 1
            regions := Function.update s.regions s.nextId
              ((m.olist.find? fun bo => bo.id = s.nextId).map fun bo =>
                ⟨bo.soffset, bo.eoffset, bo.align, none⟩) }
        | none => some { s with call := some { c with pc := .nextHole } }
      else none
    | none => none
  | .nextHole isSignaled =>
    match s.call with
    | some c =>
      if c.pc = .nextHole then
        match s.manager.nextHole isSignaled c.fences c.tries with
        | (true, m, fences, tries) =>
          some { s with
            manager := m
            call := some { c with fences := fences, tries := tries, pc := .tryFree } }
        | (false, m, _, _) => some { s with manager := m, call := none }
      else none
    | none => none
  | .free id fence signaled =>
    match s.call, s.regions id with
    | none, some r =>
      if r.freed = none then
        some { s with
          manager := s.manager.free id fence signaled
          regions := Function.update s.regions id (some { r with freed := some fence }) }
      else none
    | _, _ => none
  | .signal f => some { s with signaled := Function.update s.signaled f true }

/-- A fence that is seen signaled has signaled. -/
def Event.Sound (s : State) : Event → Prop
  | .tryFree isSignaled | .nextHole isSignaled => ∀ f, isSignaled f = true → s.signaled f = true
  | .free _ (some f) signaled => signaled = true → s.signaled f = true
  | _ => True

def State.Init (size align : ℕ) (s : State) : Prop :=
  s.manager = .init size align ∧ s.call = none ∧ ∀ id, s.regions id = none

/-- The states of a manager of some size and alignment. -/
def State.Reachable (size align : ℕ) (s : State) : Prop :=
  Transition.Reach (State.Init size align) (fun s e s' => s.step e = some s')
    (fun s e => e.Sound s) s

end Gsgpu.Suballoc
