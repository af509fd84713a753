import Gsgpu.Lib.Family
import Gsgpu.Lib.Run
import Mathlib.Data.List.Range

/-! Submissions of one client that name the same list of BOs. The entries of the list are shared,
and so are the links, the page arrays and the `bo_va` in them, while each submission has the heads
of its own lists. -/
namespace Gsgpu.Sharing
open Intrusive

/-- The lists of a submission: those of `gsgpu_cs_parser_bos` and the buckets of
`gsgpu_bo_list_get_list`. -/
inductive Kind
  | validated
  | duplicates
  | needPages
  | bucket (i : ℕ)
deriving DecidableEq

/-- Heads, entries of the list, and the two entries that a submission has for itself. -/
inductive Addr
  | head (p : ℕ) (k : Kind)
  | entry (e : ℕ)
  | vmPd (p : ℕ)
  | ufEntry (p : ℕ)
deriving DecidableEq

/-- `GSGPU_BO_LIST_NUM_BUCKETS`. -/
def numBuckets : ℕ := 33

/-- What `gsgpu_bo_list_create` has made: the userptrs come last, and have no parent, since no VM
shares its reservation with them. -/
structure BoList where
  numEntries : ℕ
  firstUserptr : ℕ
  priority : ℕ → ℕ
  hasParent : ℕ → Bool
  priority_lt : ∀ e, priority e < numBuckets
  userptr : ∀ e, firstUserptr ≤ e → hasParent e = false

inductive Phase
  | idle
  | listed
  | reserved
  | validated
  | updated
deriving DecidableEq

/-- A submission. Remembered here only: its lists as its own operations made them, and what it
stored in the entries. -/
structure Cs where
  phase : Phase
  tries : ℕ
  lists : Kind → List Addr
  userPages : ℕ → Option ℕ
  boVa : ℕ → Option ℕ

/-- The links, and the shared fields of the entries. `pd` tells which submission has the page
directory of the VM reserved; it is in the list of every one of them. -/
structure State where
  links : Links Addr
  userPages : ℕ → Option ℕ
  boVa : ℕ → Option ℕ
  pd : Option ℕ
  cs : ℕ → Cs

variable (l : BoList)

def State.setCs (s : State) (p : ℕ) (c : Cs) : State := { s with cs := Function.update s.cs p c }

/-- `gsgpu_bo_list_get_list`, as far as the links go. -/
def getList (p : ℕ) (L : Links Addr) : Links Addr :=
  let L := (List.range numBuckets).foldl (fun L i => L.init (.head p (.bucket i))) L
  let L := (List.range l.numEntries).foldl (fun L e =>
    if l.hasParent e then L else L.addTail (.entry e) (.head p (.bucket (l.priority e)))) L
  (List.range numBuckets).foldl
    (fun L i => L.splice (.head p (.bucket i)) (.head p .validated)) L

/-- The entries of a priority among the first `m`. -/
def bucketOf (m i : ℕ) : List Addr :=
  ((List.range m).filter fun e => !l.hasParent e && l.priority e = i).map .entry

/-- The entries that a submission links, those of high priority first. -/
def sorted : List Addr :=
  (List.range numBuckets).foldl (fun xs i => bucketOf l l.numEntries i ++ xs) []

/-- `gsgpu_cs_parser_bos` up to its loop; `uf` tells that there is a BO for the user fence, without
a parent. -/
def State.getList (s : State) (p : ℕ) (uf : Bool) : Option State :=
  if (s.cs p).phase = .idle then
    let L := Sharing.getList l p (s.links.init (.head p .validated))
    let L := (L.init (.head p .duplicates)).add (.vmPd p) (.head p .validated)
    let L := if uf then L.add (.ufEntry p) (.head p .validated) else L
    some ({ s with
      links := L
      userPages := fun e => if e < l.numEntries then none else s.userPages e }.setCs p
      { s.cs p with
        phase := .listed
        tries := 10
        lists := fun
          | .validated => (if uf then [Addr.ufEntry p] else []) ++ Addr.vmPd p :: sorted l
          | _ => []
        userPages := fun _ => none })
  else none

/-- `list_del` and `list_add` to a list of the submission. -/
def State.move (s : State) (p : ℕ) (x : Addr) (k : Kind) : State :=
  { s with links := (s.links.delInit x).add x (.head p k) }.setCs p
    { s.cs p with
      lists := fun k' => if k' = k then x :: ((s.cs p).lists k).erase x
        else ((s.cs p).lists k').erase x }

def State.setPages (s : State) (p e : ℕ) (pages : Option ℕ) : State :=
  { s with userPages := Function.update s.userPages e pages }.setCs p
    { s.cs p with userPages := Function.update (s.cs p).userPages e pages }

/-- `list_for_each_entry`; a list of a submission has the entries, the page directory and the user
fence at most. -/
def State.walk (s : State) (p : ℕ) (k : Kind) : Option (List Addr) :=
  s.links.entries (.head p k) (l.numEntries + 3) (s.links.next (.head p k))

/-- What TTM and the userptrs come to in one iteration of the loop: the entries that
`ttm_eu_reserve_buffers` moves, to the front or to the duplicates, the userptrs that were
invalidated and those that need pages, and the pages. -/
structure Iteration where
  moves : List (Addr × Kind)
  invalidated : ℕ → Bool
  needs : ℕ → Bool
  pages : ℕ → ℕ

/-- A move by `ttm_eu_reserve_buffers`, of an entry of the list that it walks over. -/
def State.ttmMove (p : ℕ) (s : State) (m : Addr × Kind) : Option State := do
  let xs ← s.walk l p .validated
  if m.1 ∈ xs ∧ (m.2 = .validated ∨ m.2 = .duplicates) then return s.move p m.1 m.2 else none

/-- The loop over the userptrs, for an entry. -/
def State.visitUserptr (p : ℕ) (o : Iteration) (s : State) (e : ℕ) : State :=
  let s := if o.invalidated e ∧ s.userPages e ≠ none then s.setPages p e none else s
  if o.needs e ∧ s.userPages e = none then s.move p (.entry e) .needPages else s

/-- The entries of the userptrs. -/
def BoList.userptrs : List ℕ := List.range' l.firstUserptr (l.numEntries - l.firstUserptr)

/-- The page arrays are filled, for an entry of the list. -/
def State.fill (p : ℕ) (o : Iteration) (s : State) : Addr → State
  | .entry e => s.setPages p e (some (o.pages e))
  | _ => s

/-- One iteration of the loop of `gsgpu_cs_parser_bos` that does not fail. It waits until the BOs
are reserved, and leaves them so if all userptrs have their pages. -/
def State.iterate (s : State) (p : ℕ) (o : Iteration) : Option State := do
  if (s.cs p).phase = .listed ∧ s.pd = none then
    let s ← o.moves.foldlM (State.ttmMove l p) s
    let s := { s with links := s.links.init (.head p .needPages) }
    let s := l.userptrs.foldl (State.visitUserptr p o) s
    if s.links.empty (.head p .needPages) then
      return { s with pd := some p }.setCs p { s.cs p with phase := .reserved }
    else if (s.cs p).tries - 1 = 0 then none
    else
      let xs ← s.walk l p .needPages
      let s := xs.foldl (State.fill p o) s
      return { s with links := s.links.splice (.head p .needPages) (.head p .validated) }.setCs p
        { s.cs p with
          tries := (s.cs p).tries - 1
          lists := fun
            | .validated => (s.cs p).lists .needPages ++ (s.cs p).lists .validated
            | .needPages => []
            | k => (s.cs p).lists k }
  else none

/-- The rest of `gsgpu_cs_parser_bos`: the pages of userptrs that are bound are used up, and every
entry gets the `bo_va` that `gsgpu_vm_bo_find` finds. -/
def State.validate (s : State) (p : ℕ) (bound : ℕ → Bool) (va : ℕ → Option ℕ) : Option State :=
  if (s.cs p).phase = .reserved then
    let s := l.userptrs.foldl (fun s e =>
      if bound e ∧ s.userPages e ≠ none then s.setPages p e none else s) s
    some ({ s with boVa := fun e => if e < l.numEntries then va e else s.boVa e }.setCs p
      { s.cs p with phase := .validated, boVa := va })
  else none

/-- `gsgpu_bo_vm_update_pte`, which reads the `bo_va` of every entry. -/
def State.updatePte (s : State) (p : ℕ) : Option State :=
  if (s.cs p).phase = .validated then some (s.setCs p { s.cs p with phase := .updated }) else none

/-- `gsgpu_cs_submit`: the buffers are fenced, and unreserved. -/
def State.submit (s : State) (p : ℕ) : Option State :=
  if (s.cs p).phase = .updated then
    some ({ s with pd := none }.setCs p { s.cs p with phase := .idle })
  else none

/-- An error anywhere, after which nothing is reserved, and its own lists are not used. -/
def State.abort (s : State) (p : ℕ) : Option State :=
  if (s.cs p).phase ≠ .idle then
    some ({ s with pd := if s.pd = some p then none else s.pd }.setCs p
      { s.cs p with phase := .idle })
  else none

inductive Event
  | getList (p : ℕ) (uf : Bool)
  | iterate (p : ℕ) (o : Iteration)
  | validate (p : ℕ) (bound : ℕ → Bool) (va : ℕ → Option ℕ)
  | updatePte (p : ℕ)
  | submit (p : ℕ)
  | abort (p : ℕ)

def State.step (s : State) : Event → Option State
  | .getList p uf => s.getList l p uf
  | .iterate p o => s.iterate l p o
  | .validate p bound va => s.validate l p bound va
  | .updatePte p => s.updatePte p
  | .submit p => s.submit p
  | .abort p => s.abort p

def State.Reachable (good : State → Event → Prop) (s : State) : Prop :=
  Transition.Reach (fun s => s.pd = none ∧ ∀ p, (s.cs p).phase = .idle)
    (fun s e s' => s.step l e = some s') good s

/-- A submission finds in its list what it put there, and in the entries what it stored. -/
structure State.Undisturbed (s : State) : Prop where
  validated : ∀ p, (s.cs p).phase ≠ .idle → s.walk l p .validated = some ((s.cs p).lists .validated)
  userPages : ∀ p, (s.cs p).phase ≠ .idle → ∀ e < l.numEntries,
    s.userPages e = (s.cs p).userPages e
  boVa : ∀ p, (s.cs p).phase = .validated ∨ (s.cs p).phase = .updated → ∀ e < l.numEntries,
    s.boVa e = (s.cs p).boVa e

/-- The list is sorted for a submission only while it is not another's, unless all of its BOs share
the reservation of the VM, so that no entry is linked. -/
def Event.Kept (s : State) : Event → Prop
  | .getList p _ => (∀ q, q ≠ p → (s.cs q).phase = .idle) ∨
      ∀ e < l.numEntries, l.hasParent e = true
  | _ => True

end Gsgpu.Sharing
