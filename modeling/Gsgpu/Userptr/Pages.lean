import Gsgpu.Basic
import Gsgpu.Lib.Run

/-! The pages of userptr BOs. Command submissions look pages up without a lock, install them under
the reservation of the BO and check them again under the lock of the MMU notifier, while the
notifier counts the invalidations of each BO. A page is represented by the number of invalidations
of its BO that had completed when it was looked up. -/
namespace Gsgpu.Userptr

/-- `struct gsgpu_ttm_tt` of a userptr BO with the submission that has it reserved. `handle` tells
that `gsgpu_gem_userptr_ioctl` has returned. Remembered here only: the invalidations of the BO that
have completed. -/
structure Bo where
  mmuInvalidations : UInt32
  lastSetPages : UInt32
  pages : List ℕ
  resv : Option ℕ
  handle : Bool
  completed : ℕ

/-- What `struct gsgpu_bo_list_entry` keeps of the pages of its BO. -/
structure Entry where
  userInvalidated : UInt32
  userPages : Option (List ℕ)

/-- Where `gsgpu_cs_ioctl` stands: at the head of the loop of `gsgpu_cs_parser_bos`, with the
entries it has still to check, to fill, to pin pages for or to validate, or with the pages that
`gsgpu_bo_vm_update_pte` has mapped for its BOs. -/
inductive Phase
  | idle
  | reserve
  | check (todo : List ℕ)
  | fill (todo : List ℕ)
  | pin (e : ℕ) (todo : List ℕ)
  | validate (todo : List ℕ)
  | mapped (uses : List (ℕ × List ℕ))
deriving DecidableEq

/-- A command submission: the userptr entries of its BO list, and the lists these are on. -/
structure Cs where
  phase : Phase
  entries : List ℕ
  validated : List ℕ
  duplicates : List ℕ
  needPages : List ℕ
  tries : ℕ

/-- A pushed job's use of a BO: the pages, and how many invalidations of the BO had completed at
the push. -/
structure Use where
  bo : ℕ
  pages : List ℕ
  completed : ℕ

/-- BOs, entries, submissions and invalidations are numbered. `running` are the invalidations that
have the notifier's lock for reading, `affected` the BOs that each of them has counted. -/
structure State where
  bo : ℕ → Bo
  entry : ℕ → Entry
  cs : ℕ → Cs
  running : List ℕ
  affected : List (ℕ × ℕ)
  pushed : List (List Use)

def State.initial : State where
  bo := fun _ => ⟨0, 0, [], none, false, 0⟩
  entry := fun _ => ⟨0, none⟩
  cs := fun _ => ⟨.idle, [], [], [], [], 0⟩
  running := []
  affected := []
  pushed := []

def State.setBo (s : State) (b : ℕ) (x : Bo) : State := { s with bo := Function.update s.bo b x }

def State.setEntry (s : State) (e : ℕ) (x : Entry) : State :=
  { s with entry := Function.update s.entry e x }

def State.setCs (s : State) (p : ℕ) (x : Cs) : State := { s with cs := Function.update s.cs p x }

/-- `gsgpu_ttm_tt_userptr_needs_pages`. -/
def Bo.needsPages (b : Bo) : Bool := b.mmuInvalidations != b.lastSetPages

/-- `gsgpu_ttm_tt_userptr_invalidated`: whether the counter moved, and its new sample. -/
def Bo.userptrInvalidated (b : Bo) (lastInvalidated : UInt32) : Bool × UInt32 :=
  (lastInvalidated != b.mmuInvalidations, b.mmuInvalidations)

/-- `gsgpu_ttm_tt_set_user_pages`. -/
def Bo.setUserPages (b : Bo) (pages : List ℕ) : Bo :=
  { b with lastSetPages := b.mmuInvalidations, pages := pages }

/-- `gsgpu_mn_invalidate_range_start_gfx` gets the read lock. -/
def State.rangeStart (s : State) (i : ℕ) : Option State :=
  if i ∈ s.running then none else some { s with running := i :: s.running }

/-- `gsgpu_ttm_tt_affect_userptr`, from the notifier, for a BO in the range. A task that is
looking up pages of the BO itself is not counted and takes no step here. -/
def State.affectUserptr (s : State) (i b : ℕ) : Option State :=
  let x := s.bo b
  if i ∈ s.running ∧ ∀ a ∈ s.affected, a ≠ (i, b) then
    some { s.setBo b { x with mmuInvalidations := x.mmuInvalidations + 1 } with
      affected := (i, b) :: s.affected }
  else none

/-- `gsgpu_mn_invalidate_range_end`: the lock is released, and the BOs are invalidated. -/
def State.rangeEnd (s : State) (i : ℕ) : Option State :=
  if i ∈ s.running then
    some { s with
      running := s.running.erase i
      affected := s.affected.filter fun a => !(a.1 == i)
      bo := fun b => { s.bo b with
        completed := (s.bo b).completed +
          (s.affected.filter fun a => a.1 == i).countP fun a => a.2 == b } }
  else none

/-- A call of `get_user_pages` in `gsgpu_gem_userptr_ioctl` for `GSGPU_GEM_USERPTR_VALIDATE`, which
pins `r` more pages of the new BO. -/
def State.userptrPin (s : State) (b r : ℕ) : Option State :=
  let x := s.bo b
  if x.handle then none
  else some (s.setBo b { x with pages := x.pages ++ List.replicate r x.completed })

/-- `gsgpu_gem_userptr_ioctl` returns the handle. -/
def State.userptrDone (s : State) (b : ℕ) : Option State :=
  let x := s.bo b
  if x.handle then none else some (s.setBo b { x with handle := true })

section Submission

/-! What the lists and the BOs are does not change: `robj` is the BO of an entry, `numPages` the
size of a BO. -/
variable (robj numPages : ℕ → ℕ)

/-- `gsgpu_bo_list_get_list`, when a submission starts. -/
def State.getList (s : State) (p : ℕ) (es : List ℕ) : Option State :=
  if (s.cs p).phase = .idle ∧ ∀ e ∈ es, (s.bo (robj e)).handle then
    some { s.setCs p ⟨.reserve, es, es, [], [], 10⟩ with
      entry := fun e => if e ∈ es then { s.entry e with userPages := none } else s.entry e }
  else none

/-- The loop of `ttm_eu_reserve_buffers`: the BOs, the entries that stay on the list and those
that go to the duplicates. It waits for a BO that another submission has reserved. -/
def reserveBuffers (p : ℕ) : List ℕ → (ℕ → Bo) → Option ((ℕ → Bo) × List ℕ × List ℕ)
  | [], bo => some (bo, [], [])
  | e :: es, bo =>
    match (bo (robj e)).resv with
    | none => do
      let (bo', v, d) ← reserveBuffers p es
        (Function.update bo (robj e) { bo (robj e) with resv := some p })
      some (bo', e :: v, d)
    | some q =>
      if q = p then do
        let (bo', v, d) ← reserveBuffers p es bo
        some (bo', v, e :: d)
      else none

/-- `ttm_eu_reserve_buffers` at the head of the loop. -/
def State.reserve (s : State) (p : ℕ) : Option State :=
  let c := s.cs p
  match c.phase with
  | .reserve => do
    let (bo, v, d) ← reserveBuffers robj p c.validated s.bo
    some { s.setCs p { c with
      phase := .check c.entries
      validated := v
      duplicates := d ++ c.duplicates } with bo := bo }
  | _ => none

/-- Every BO of a list of entries is unreserved. -/
def unreserve (es : List ℕ) (bo : ℕ → Bo) (b : ℕ) : Bo :=
  if b ∈ es.map robj then { bo b with resv := none } else bo b

/-- The pages of the next entry are checked, and dropped if they were invalidated. -/
def State.check (s : State) (p : ℕ) : Option State :=
  let c := s.cs p
  match c.phase with
  | .check (e :: todo) =>
    let b := s.bo (robj e)
    let sampled := b.userptrInvalidated (s.entry e).userInvalidated
    let pages := if sampled.1 then none else (s.entry e).userPages
    let s := s.setEntry e ⟨sampled.2, pages⟩
    if b.needsPages && pages.isNone then
      some ((s.setBo (robj e) { b with resv := none }).setCs p { c with
        phase := .check todo
        validated := c.validated.erase e
        duplicates := c.duplicates.erase e
        needPages := e :: c.needPages })
    else some (s.setCs p { c with phase := .check todo })
  | _ => none

/-- The end of the check: on to validation when no entry needs pages, else everything is
unreserved and the arrays are filled, unless it was the last try. -/
def State.leaveCheck (s : State) (p : ℕ) : Option State :=
  let c := s.cs p
  match c.phase with
  | .check [] =>
    if c.needPages = [] then
      some (s.setCs p { c with phase := .validate (c.duplicates ++ c.validated) })
    else
      let phase := if c.tries - 1 = 0 then Phase.idle else .fill c.needPages
      some { s.setCs p { c with phase := phase, tries := c.tries - 1 } with
        bo := unreserve robj c.validated s.bo }
  | _ => none

/-- The array for the next entry is allocated, or all are filled and the loop starts again. -/
def State.alloc (s : State) (p : ℕ) : Option State :=
  let c := s.cs p
  match c.phase with
  | .fill (e :: todo) =>
    some ((s.setEntry e { s.entry e with userPages := some [] }).setCs p
      { c with phase := .pin e todo })
  | .fill [] =>
    some (s.setCs p { c with
      phase := .reserve
      validated := c.needPages ++ c.validated
      needPages := [] })
  | _ => none

/-- A call of `get_user_pages` in the loop of `gsgpu_ttm_tt_get_user_pages`, which pins `r` more
pages. -/
def State.pin (s : State) (p r : ℕ) : Option State :=
  let c := s.cs p
  match c.phase with
  | .pin e todo =>
    match (s.entry e).userPages with
    | some pages =>
      let pages := pages ++ List.replicate r (s.bo (robj e)).completed
      if pages.length ≤ numPages (robj e) then
        some ((s.setEntry e { s.entry e with userPages := some pages }).setCs p { c with
          phase := if pages.length < numPages (robj e) then .pin e todo else .fill todo })
      else none
    | none => none
  | _ => none

/-- `gsgpu_cs_list_validate`, for one entry. The order on the list depends on priorities and on
contention, so any entry may be the next. -/
def State.validate (s : State) (p e : ℕ) : Option State :=
  let c := s.cs p
  match c.phase with
  | .validate todo =>
    if e ∈ todo then
      let s := s.setCs p { c with phase := .validate (todo.erase e) }
      let b := s.bo (robj e)
      match b.needsPages, (s.entry e).userPages with
      | true, some pages =>
        some ((s.setBo (robj e) (b.setUserPages pages)).setEntry e
          { s.entry e with userPages := none })
      | _, _ => some s
    else none
  | _ => none

/-- `gsgpu_bo_vm_update_pte` maps the pages that the BOs have. -/
def State.updatePte (s : State) (p : ℕ) : Option State :=
  let c := s.cs p
  match c.phase with
  | .validate [] =>
    some (s.setCs p { c with
      phase := .mapped (c.entries.map fun e => (robj e, (s.bo (robj e)).pages)) })
  | _ => none

/-- `gsgpu_cs_submit`, under the notifier's write lock when the list has userptr entries. -/
def State.submit (s : State) (p : ℕ) : Option State :=
  let c := s.cs p
  match c.phase with
  | .mapped uses =>
    if c.entries = [] ∨ s.running = [] then
      let s' := { s.setCs p { c with phase := .idle } with
        bo := unreserve robj c.validated s.bo }
      if c.entries.any fun e => (s.bo (robj e)).needsPages then some s'
      else some { s' with
        pushed := (uses.map fun u => ⟨u.1, u.2, (s.bo u.1).completed⟩) :: s.pushed }
    else none
  | _ => none

/-- The submission fails, anywhere but in the check. -/
def State.fail (s : State) (p : ℕ) : Option State :=
  let c := s.cs p
  let s' := s.setCs p { c with phase := .idle }
  match c.phase with
  | .idle | .check _ => none
  | .reserve | .fill _ => some s'
  | .pin e _ => some (s'.setEntry e { s.entry e with userPages := none })
  | .validate _ | .mapped _ => some { s' with bo := unreserve robj c.validated s.bo }

inductive Event
  | rangeStart (i : ℕ)
  | affectUserptr (i b : ℕ)
  | rangeEnd (i : ℕ)
  | userptrPin (b r : ℕ)
  | userptrDone (b : ℕ)
  | getList (p : ℕ) (es : List ℕ)
  | reserve (p : ℕ)
  | check (p : ℕ)
  | leaveCheck (p : ℕ)
  | alloc (p : ℕ)
  | pin (p r : ℕ)
  | validate (p e : ℕ)
  | updatePte (p : ℕ)
  | submit (p : ℕ)
  | fail (p : ℕ)

def State.step (s : State) : Event → Option State
  | .rangeStart i => s.rangeStart i
  | .affectUserptr i b => s.affectUserptr i b
  | .rangeEnd i => s.rangeEnd i
  | .userptrPin b r => s.userptrPin b r
  | .userptrDone b => s.userptrDone b
  | .getList p es => s.getList robj p es
  | .reserve p => s.reserve robj p
  | .check p => s.check robj p
  | .leaveCheck p => s.leaveCheck robj p
  | .alloc p => s.alloc p
  | .pin p r => s.pin robj numPages p r
  | .validate p e => s.validate robj p e
  | .updatePte p => s.updatePte robj p
  | .submit p => s.submit robj p
  | .fail p => s.fail robj p

/-- The states reached from no submission and no BO when all steps meet `good`. -/
def State.Reachable (good : State → Event → Prop) (s : State) : Prop :=
  Transition.Reach (fun s => s = State.initial)
    (fun s e s' => s.step robj numPages e = some s') good s

/-- The invalidations of a BO that were counted, complete or not. -/
def State.started (s : State) (b : ℕ) : ℕ :=
  (s.bo b).completed + s.affected.countP fun a => a.2 == b

/-- An entry of the list of a submission under way. -/
def State.InUse (s : State) (e : ℕ) : Prop :=
  ∃ p, (s.cs p).phase ≠ .idle ∧ e ∈ (s.cs p).entries

/-- Every page a pushed job uses was looked up after the last invalidation of its BO that had
completed at the push. -/
def State.PagesCurrent (s : State) : Prop :=
  ∀ job ∈ s.pushed, ∀ u ∈ job, ∀ t ∈ u.pages, u.completed ≤ t

end Submission

end Gsgpu.Userptr
