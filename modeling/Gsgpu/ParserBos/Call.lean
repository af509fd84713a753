import Gsgpu.Basic
import Gsgpu.Lib.Custody
import Gsgpu.Lib.Run

/-! One call of `gsgpu_cs_parser_bos`: the entries on its lists, the BOs that it reserves and the
references to user pages that it gets, installs and drops, while others invalidate and replace the
pages of the BOs. A page is represented by the number of the reference to it. -/
namespace Gsgpu.ParserBos

/-- What does not change during a call: the BO of an entry, the entries of the BO list for userptr
BOs, and of a BO its size, whether it has a `userptr`, and whether it is of another process. -/
structure Call where
  robj : ℕ → ℕ
  userptrs : List ℕ
  numPages : ℕ → ℕ
  userptr : ℕ → Bool
  foreign : ℕ → Bool
  nodup : userptrs.Nodup

/-- `struct gsgpu_ttm_tt`. -/
structure Bo where
  mmuInvalidations : UInt32
  lastSetPages : UInt32
  pages : List ℕ

/-- What `struct gsgpu_bo_list_entry` keeps of the pages of its BO. -/
structure Entry where
  userInvalidated : UInt32
  userPages : Option (List ℕ)

/-- Where the call is: at the head of its loop; at the two tests of an entry; at the allocation of
an array or in `gsgpu_ttm_tt_get_user_pages`; at the page tables; at the next entry that
`gsgpu_cs_list_validate` finds on the duplicates or on `validated`, or in `gsgpu_cs_validate` for
it, where `binding` is `binding_userptr`; at the user fence; at `error_free_pages`. -/
inductive Phase
  | reserve
  | check (todo : List ℕ)
  | lacks (e : ℕ) (todo : List ℕ)
  | fill (todo : List ℕ)
  | pin (e : ℕ) (todo : List ℕ)
  | validatePts
  | walk (dups : Bool) (cur : Option ℕ)
  | validate (dups : Bool) (e : ℕ) (binding : Bool)
  | fence
  | freePages (failed : Bool) (todo : List ℕ)
  | done (failed : Bool)
deriving DecidableEq

/-- Remembered here only: how often the call has reserved each BO, the BOs it unreserved without
having them reserved, how many references there were, and those that were dropped. -/
structure State where
  bo : ℕ → Bo
  entry : ℕ → Entry
  phase : Phase
  validated : List ℕ
  duplicates : List ℕ
  needPages : List ℕ
  tries : ℕ
  held : ℕ → ℕ
  strays : List ℕ
  next : ℕ
  dropped : List ℕ

def State.setBo (s : State) (b : ℕ) (x : Bo) : State := { s with bo := Function.update s.bo b x }

def State.setEntry (s : State) (e : ℕ) (x : Entry) : State :=
  { s with entry := Function.update s.entry e x }

def State.setPhase (s : State) (phase : Phase) : State := { s with phase := phase }

/-- `put_page` and `release_pages`. -/
def State.drop (s : State) (pages : List ℕ) : State := { s with dropped := s.dropped ++ pages }

/-- `gsgpu_bo_unreserve`. -/
def State.unreserve (s : State) (b : ℕ) : State :=
  if s.held b = 0 then { s with strays := b :: s.strays }
  else { s with held := Function.update s.held b (s.held b - 1) }

/-- `gsgpu_ttm_tt_set_user_pages`, for an array of at least the size of the BO. -/
def State.setUserPages (s : State) (b : ℕ) (pages : List ℕ) : State :=
  (s.drop (s.bo b).pages).setBo b
    { s.bo b with lastSetPages := (s.bo b).mmuInvalidations, pages := pages }

/-- `gsgpu_ttm_tt_userptr_invalidated`: whether the counter moved, and its new sample. -/
def Bo.userptrInvalidated (b : Bo) (lastInvalidated : UInt32) : Bool × UInt32 :=
  (lastInvalidated != b.mmuInvalidations, b.mmuInvalidations)

/-- The next entry on a list. -/
def nextEntry (list : List ℕ) (e : ℕ) : Option ℕ := ((list.dropWhile (· != e)).tail).head?

namespace Call

variable (c : Call)

/-- `gsgpu_ttm_tt_userptr_needs_pages`. -/
def needsPages (s : State) (b : ℕ) : Bool :=
  c.userptr b && (s.bo b).mmuInvalidations != (s.bo b).lastSetPages

/-- An entry needs pages, and has no array. -/
def lacksPages (s : State) (e : ℕ) : Bool :=
  c.needsPages s (c.robj e) && (s.entry e).userPages.isNone

/-- `ttm_eu_backoff_reservation`. -/
def backoff (s : State) (list : List ℕ) : State :=
  list.foldl (fun s e => s.unreserve (c.robj e)) s

/-- `error_free_pages`, with the reservations as they are. -/
def leave (s : State) (failed : Bool) : State := s.setPhase (.freePages failed c.userptrs)

/-- `error_validate` with an error. -/
def fail (s : State) : State := c.leave (c.backoff s s.validated) true

/-- `ttm_eu_reserve_buffers` leaves `v` on the list and moves `d` to the duplicates. -/
def reserve (s : State) (v d : List ℕ) : Option State :=
  match s.phase with
  | .reserve =>
    if (v ++ d).isPerm s.validated ∧ (v.map c.robj).Nodup ∧ ∀ e ∈ d, c.robj e ∈ v.map c.robj then
      some { s with
        phase := .check c.userptrs
        validated := v
        duplicates := d ++ s.duplicates
        held := fun b => s.held b + (v.map c.robj).count b }
    else none
  | _ => none

/-- `ttm_eu_reserve_buffers` fails, with nothing reserved. -/
def reserveFails (s : State) : Option State :=
  match s.phase with
  | .reserve => some (c.leave s true)
  | _ => none

/-- The first test of the next entry, which drops invalidated pages, or the end of the tests. -/
def check (s : State) : Option State :=
  match s.phase with
  | .check (e :: todo) =>
    let sampled := (s.bo (c.robj e)).userptrInvalidated (s.entry e).userInvalidated
    match sampled.1, (s.entry e).userPages with
    | true, some pages =>
      some (((s.drop (pages.take (c.numPages (c.robj e)))).setEntry e ⟨sampled.2, none⟩).setPhase
        (.lacks e todo))
    | _, pages => some ((s.setEntry e ⟨sampled.2, pages⟩).setPhase (.lacks e todo))
  | .check [] =>
    if s.needPages = [] then some (s.setPhase .validatePts)
    else
      let s' := { c.backoff s s.validated with tries := s.tries - 1 }
      if s'.tries = 0 then some (c.leave s' true) else some (s'.setPhase (.fill s.needPages))
  | _ => none

/-- The second test: an entry that needs pages is moved, and its BO unreserved. -/
def lacks (s : State) : Option State :=
  match s.phase with
  | .lacks e todo =>
    if c.lacksPages s e then
      some (({ s with
        validated := s.validated.erase e
        duplicates := s.duplicates.erase e
        needPages := e :: s.needPages }.unreserve (c.robj e)).setPhase (.check todo))
    else some (s.setPhase (.check todo))
  | _ => none

/-- `kvmalloc_array` for the next entry, or all arrays are filled and the loop starts again. -/
def alloc (s : State) (ok : Bool) : Option State :=
  match s.phase with
  | .fill (e :: todo) =>
    if ok then
      some ((s.setEntry e { s.entry e with userPages := some [] }).setPhase (.pin e todo))
    else some (c.leave (s.setEntry e { s.entry e with userPages := none }) true)
  | .fill [] =>
    some { s with
      phase := .reserve
      validated := s.needPages ++ s.validated
      needPages := [] }
  | _ => none

/-- A turn of `gsgpu_ttm_tt_get_user_pages`: `r` more pages are pinned, or an error, where those
pinned are dropped. -/
def pin (s : State) (r : Option ℕ) : Option State :=
  match s.phase with
  | .pin e todo =>
    let pages := (s.entry e).userPages.getD []
    match r with
    | none =>
      some (c.leave ((s.drop pages).setEntry e { s.entry e with userPages := none }) true)
    | some r =>
      if pages.length + r ≤ c.numPages (c.robj e) then
        let phase : Phase :=
          if pages.length + r < c.numPages (c.robj e) then .pin e todo else .fill todo
        some { s.setEntry e { s.entry e with userPages := some (pages ++ List.range' s.next r) } with
          next := s.next + r
          phase := phase }
      else none
  | _ => none

/-- `gsgpu_vm_validate_pt_bos`. -/
def validatePts (s : State) (ok : Bool) : Option State :=
  match s.phase with
  | .validatePts =>
    if ok then some (s.setPhase (.walk true s.duplicates.head?)) else some (c.fail s)
  | _ => none

/-- `gsgpu_cs_try_evict`, for an entry of another BO than the one that is validated. -/
def evict (s : State) (x : ℕ) : Option State :=
  let moved := { s with validated := x :: s.validated.erase x }
  match s.phase with
  | .validatePts => if x ∈ s.validated then some moved else none
  | .validate _ e _ => if x ∈ s.validated ∧ c.robj x ≠ c.robj e then some moved else none
  | _ => none

/-- `gsgpu_cs_list_validate` to `gsgpu_cs_validate` for the next entry, where `moved` is whether
the BO could be moved before its pages are set, or the end of the list. -/
def visit (s : State) (moved : Bool) : Option State :=
  match s.phase with
  | .walk dups (some e) =>
    let b := c.robj e
    if c.foreign b then some (c.fail s)
    else
      match c.needsPages s b, (s.entry e).userPages with
      | true, some pages =>
        if moved then
          some ((s.setUserPages b (pages.take (c.numPages b))).setPhase (.validate dups e true))
        else some (c.fail s)
      | _, _ => some (s.setPhase (.validate dups e false))
  | .walk true none => some (s.setPhase (.walk false s.validated.head?))
  | .walk false none => some (s.setPhase .fence)
  | _ => none

/-- `gsgpu_cs_validate` returns. -/
def validated (s : State) (ok : Bool) : Option State :=
  match s.phase with
  | .validate dups e binding =>
    if ok then
      let cur := nextEntry (if dups then s.duplicates else s.validated) e
      let s := if binding then s.setEntry e { s.entry e with userPages := none } else s
      some (s.setPhase (.walk dups cur))
    else some (c.fail s)
  | _ => none

/-- `gsgpu_ttm_alloc_gart` for the user fence, if there is one. -/
def fence (s : State) (ok : Bool) : Option State :=
  match s.phase with
  | .fence => if ok then some (c.leave s false) else some (c.fail s)
  | _ => none

/-- The next turn of the loop at `error_free_pages`, which leaves the pointer. -/
def freePages (s : State) : Option State :=
  match s.phase with
  | .freePages failed (e :: todo) =>
    match (s.entry e).userPages with
    | none => some (s.setPhase (.freePages failed todo))
    | some pages =>
      some ((s.drop (pages.take (c.numPages (c.robj e)))).setPhase (.freePages failed todo))
  | .freePages failed [] => some (s.setPhase (.done failed))
  | _ => none

end Call

/-- The pages of a BO are invalidated. -/
def State.invalidate (s : State) (b : ℕ) : State :=
  s.setBo b { s.bo b with mmuInvalidations := (s.bo b).mmuInvalidations + 1 }

/-- Somebody else sets or takes away the pages of a BO. -/
def State.replace (s : State) (b n : ℕ) : State :=
  { s.setUserPages b (List.range' s.next n) with next := s.next + n }

inductive Event
  | reserve (v d : List ℕ)
  | reserveFails
  | check
  | lacks
  | alloc (ok : Bool)
  | pin (r : Option ℕ)
  | validatePts (ok : Bool)
  | evict (x : ℕ)
  | visit (moved : Bool)
  | validated (ok : Bool)
  | fence (ok : Bool)
  | freePages
  | invalidate (b : ℕ)
  | replace (b n : ℕ)

def Call.step (c : Call) (s : State) : Event → Option State
  | .reserve v d => c.reserve s v d
  | .reserveFails => c.reserveFails s
  | .check => c.check s
  | .lacks => c.lacks s
  | .alloc ok => c.alloc s ok
  | .pin r => c.pin s r
  | .validatePts ok => c.validatePts s ok
  | .evict x => c.evict s x
  | .visit moved => c.visit s moved
  | .validated ok => c.validated s ok
  | .fence ok => c.fence s ok
  | .freePages => c.freePages s
  | .invalidate b => some (s.invalidate b)
  | .replace b n => some (s.replace b n)

/-- Before the loop: nothing is reserved, no entry has pages, and those of the BOs are referred to. -/
structure Call.Start (c : Call) (s : State) : Prop where
  phase : s.phase = .reserve
  userPages : ∀ e, (s.entry e).userPages = none
  listed : ∀ e ∈ c.userptrs, e ∈ s.validated
  needPages : s.needPages = []
  held : ∀ b, s.held b = 0
  strays : s.strays = []
  pages : Custody.Exact (fun b => (s.bo b).pages) s.next
  dropped : s.dropped = []

/-- The states reached when all steps meet `good`. -/
def Call.Reachable (c : Call) (good : State → Event → Prop) (s : State) : Prop :=
  Transition.Reach c.Start (fun s e s' => c.step s e = some s') good s

/-- No BO is unreserved that the call has not reserved, no reference is dropped twice, and none
that a BO holds is dropped. At the end each reference is held by a BO or dropped, and the BOs of
`validated` are reserved once, or after an error none is. -/
structure Call.Balanced (c : Call) (s : State) : Prop where
  strays : s.strays = []
  once : s.dropped.Nodup
  owned : ∀ b, ∀ t ∈ (s.bo b).pages, t ∉ s.dropped
  pages : ∀ b, (s.bo b).pages.Nodup
  apart : ∀ b b', b ≠ b' → ∀ t ∈ (s.bo b).pages, t ∉ (s.bo b').pages
  kept : ∀ failed, s.phase = .done failed → ∀ t, t < s.next →
    t ∈ s.dropped ∨ ∃ b, t ∈ (s.bo b).pages
  failed : s.phase = .done true → ∀ b, s.held b = 0
  succeeded : s.phase = .done false → ∀ b, s.held b = if b ∈ s.validated.map c.robj then 1 else 0

end Gsgpu.ParserBos
