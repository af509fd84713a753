import Gsgpu.Vram.Bo
import Mathlib.Data.List.Nodup
import Mathlib.Data.List.Perm.Basic

/-! Validation of a submission's BOs. `gsgpu_cs_list_validate` walks over a list of entries and has
TTM move each BO to where it may be used; when there is no memory left for one, a BO of the same
submission is moved away, and its entry to the head of the list that is being walked over. -/
namespace Gsgpu.Validation
open Vram

/-- Where a BO is: its memory type, and whether it is in VRAM that the CPU sees. -/
structure Place where
  memType : MemType
  visible : Bool
deriving DecidableEq

/-- The fields of `struct gsgpu_bo` and its `ttm` that validation reads. The allowed domains are the
preferred ones, with the GTT added to VRAM alone. -/
structure Bo where
  allowedDomains : Domain
  preferredDomains : Domain
  pinCount : ℕ
  cpuAccessRequired : Bool
  shadow : Option ℕ
  usermm : Option ℕ
  userptr : Bool
  mmuInvalidations : UInt32
  subset : preferredDomains ⊆ allowedDomains
  nonempty : preferredDomains = ∅ → allowedDomains = ∅

/-- What does not change while a submission is validated: the BOs, the BO of each entry, the
thresholds, and the submitter's memory. -/
structure Job where
  bo : ℕ → Bo
  robj : ℕ → ℕ
  bytesMovedThreshold : UInt64
  bytesMovedVisThreshold : UInt64
  vramFullVisible : Bool
  mm : ℕ

/-- `p->evictable`: an entry, or the head of the list once the walk over it has come there. -/
inductive Evictable
  | null
  | head
  | entry (e : ℕ)
deriving DecidableEq

/-- `struct gsgpu_cs_parser` and what of the BOs and entries changes: where the BOs are, whether
entries carry user pages, for which invalidation a BO's pages were last set and which entry's they
are. -/
structure Parser where
  validated : List ℕ
  duplicates : List ℕ
  evictable : Evictable
  bytesMoved : UInt64
  bytesMovedVis : UInt64
  mem : ℕ → Place
  userPages : ℕ → Bool
  lastSetPages : ℕ → UInt32
  pages : ℕ → Option ℕ

/-- The list that a walk is over. -/
inductive Which
  | validated
  | duplicates
deriving DecidableEq

def Parser.list (s : Parser) : Which → List ℕ
  | .validated => s.validated
  | .duplicates => s.duplicates

/-- The memory types among which `gsgpu_bo_placement_from_domain` lets TTM choose. -/
def placements (domain : Domain) : Domain := if domain = ∅ then {.system} else domain

/-- `ttm_bo_validate`. It may fail at any time; when it does not, the BO is where it was asked to be.
The second component is what it adds to `ctx.bytes_moved`. -/
structure Ttm where
  validate : Parser → ℕ → Domain → Except Errno Place × UInt64
  placed : ∀ s b domain m, (validate s b domain).1 = .ok m → m.memType ∈ placements domain

variable (j : Job) (T : Ttm)

/-- `ttm_bo_validate` after `gsgpu_bo_placement_from_domain`, with the context's `bytes_moved`. -/
def ttmBoValidate (s : Parser) (b : ℕ) (domain : Domain) (bytes : UInt64) :
    Except Errno Unit × UInt64 × Parser :=
  match T.validate s b domain with
  | (.ok m, n) => (.ok (), bytes + n, { s with mem := Function.update s.mem b m })
  | (.error e, n) => (.error e, bytes + n, s)

/-- `gsgpu_bo_in_cpu_visible_vram`. -/
def Parser.inCpuVisibleVram (s : Parser) (b : ℕ) : Bool :=
  decide ((s.mem b).memType = .vram) && (s.mem b).visible

/-- An attempt of `gsgpu_cs_bo_validate`, from the label `retry`. -/
def csBoAttempt (s : Parser) (b : ℕ) (domain : Domain) (bytes : UInt64) :
    Except Errno Unit × UInt64 × Parser :=
  let (r, bytes, s) := ttmBoValidate T s b domain bytes
  (r, bytes, { s with
    bytesMoved := s.bytesMoved + bytes
    bytesMovedVis :=
      if !j.vramFullVisible && s.inCpuVisibleVram b then s.bytesMovedVis + bytes
      else s.bytesMovedVis })

/-- The domain that `gsgpu_cs_bo_validate` asks for first. -/
def firstDomain (s : Parser) (b : ℕ) : Domain :=
  let bo := j.bo b
  if s.bytesMoved < j.bytesMovedThreshold then
    if !j.vramFullVisible && bo.cpuAccessRequired then
      if s.bytesMovedVis < j.bytesMovedVisThreshold then bo.preferredDomains else bo.allowedDomains
    else bo.preferredDomains
  else bo.allowedDomains

/-- `gsgpu_cs_bo_validate`. -/
def csBoValidate (s : Parser) (b : ℕ) : Except Errno Unit × Parser :=
  if (j.bo b).pinCount ≠ 0 then (.ok (), s)
  else
    let domain := firstDomain j s b
    let (r, bytes, s) := csBoAttempt j T s b domain 0
    if r = .error .enomem ∧ domain ≠ (j.bo b).allowedDomains then
      let (r, _, s) := csBoAttempt j T s b (j.bo b).allowedDomains bytes
      (r, s)
    else (r, s)

/-- The entry before in the list, of which `rest` are the entries before the current one, the
nearest first. -/
def prevEntry : List ℕ → Evictable
  | [] => .head
  | e :: _ => .entry e

/-- The walk of `gsgpu_cs_try_evict`, over `candidates`: those from `p->evictable` to the head of the
list, backwards. -/
def evictFrom (s : Parser) (validated : ℕ) : List ℕ → Bool × Parser
  | [] => (false, { s with evictable := .head })
  | candidate :: rest =>
    let b := j.robj candidate
    let domain := (j.bo validated).allowedDomains
    let other := (j.bo b).allowedDomains \ domain
    if b = validated then (false, { s with evictable := .entry candidate })
    else if (j.bo b).pinCount ≠ 0 then evictFrom s validated rest
    else if (s.mem b).memType ∉ domain then evictFrom s validated rest
    else if other = ∅ then evictFrom s validated rest
    else
      let updateVis := !j.vramFullVisible && s.inCpuVisibleVram b
      let (r, bytes, s) := ttmBoValidate T s b other 0
      let s := { s with
        bytesMoved := s.bytesMoved + bytes
        bytesMovedVis := if updateVis then s.bytesMovedVis + bytes else s.bytesMovedVis }
      match r with
      | .error _ => (false, { s with evictable := .entry candidate })
      | .ok () => (true, { s with
          evictable := prevEntry rest
          validated := candidate :: s.validated.erase candidate })

/-- The entries from `p->evictable` to the head of the list, backwards. -/
def Parser.within (s : Parser) : List ℕ :=
  match s.evictable with
  | .null | .head => []
  | .entry e => e :: (s.validated.takeWhile (· ≠ e)).reverse

/-- `gsgpu_cs_try_evict`. -/
def csTryEvict (s : Parser) (validated : ℕ) : Bool × Parser :=
  if s.evictable = .null then (false, s) else evictFrom j T s validated s.within

/-- `gsgpu_cs_validate`, with fuel for its loop. -/
def csValidate : ℕ → Parser → ℕ → Option (Except Errno Unit × Parser)
  | 0, _, _ => none
  | fuel + 1, s, b =>
    match csBoValidate j T s b with
    | (.error .enomem, s) =>
      match csTryEvict j T s b with
      | (true, s) => csValidate fuel s b
      | (false, s) => some (.error .enomem, s)
    | (.error e, s) => some (.error e, s)
    | (.ok (), s) =>
      match (j.bo b).shadow with
      | none => some (.ok (), s)
      | some shadow => some (csBoValidate j T s shadow)

/-- `gsgpu_ttm_tt_userptr_needs_pages`. -/
def Parser.needsPages (s : Parser) (b : ℕ) : Bool :=
  (j.bo b).userptr && (j.bo b).mmuInvalidations != s.lastSetPages b

/-- `gsgpu_ttm_tt_set_user_pages` with the pages of entry `e`. -/
def Parser.setUserPages (s : Parser) (b e : ℕ) : Parser :=
  { s with
    lastSetPages := Function.update s.lastSetPages b (j.bo b).mmuInvalidations
    pages := Function.update s.pages b (some e) }

/-- The first part of the loop over the entries: the user pages of entry `e`, if it carries any that
its BO needs. The result tells whether they were set. -/
def bindUserPages (s : Parser) (e : ℕ) : Except Errno Bool × Parser :=
  let b := j.robj e
  if s.needsPages j b && s.userPages e then
    match ttmBoValidate T s b {.system} 0 with
    | (.error r, _, s) => (.error r, s)
    | (.ok (), _, s) => (.ok true, s.setUserPages j b e)
  else (.ok false, s)

/-- `p->evictable` is forgotten when the loop comes to it. -/
def Parser.passEvictable (s : Parser) (e : ℕ) : Parser :=
  if s.evictable = .entry e then { s with evictable := .null } else s

/-- The BO belongs to the memory of another process. -/
def Job.Foreign (b : ℕ) : Prop := (j.bo b).usermm ≠ none ∧ (j.bo b).usermm ≠ some j.mm

instance (b : ℕ) : Decidable (j.Foreign b) := inferInstanceAs (Decidable (_ ∧ _))

/-- The body of the loop of `gsgpu_cs_list_validate`, for entry `e`. -/
def csVisit (fuel : ℕ) (s : Parser) (e : ℕ) : Option (Except Errno Unit × Parser) :=
  if j.Foreign (j.robj e) then some (.error .eperm, s)
  else
    match bindUserPages j T s e with
    | (.error r, s) => some (.error r, s)
    | (.ok bindingUserptr, s) =>
      match csValidate j T fuel (s.passEvictable e) (j.robj e) with
      | none => none
      | some (.error r, s) => some (.error r, s)
      | some (.ok (), s) =>
        if bindingUserptr then
          some (.ok (), { s with userPages := Function.update s.userPages e false })
        else some (.ok (), s)

/-- The entry after `e` in a list. -/
def nextEntry (l : List ℕ) (e : ℕ) : Option ℕ := (l.dropWhile (· ≠ e)).tail.head?

/-- The loop of `gsgpu_cs_list_validate`, at an entry or at the end of the list. -/
def listLoop (w : Which) : ℕ → Parser → Option ℕ → Option (Except Errno Unit × Parser)
  | 0, _, _ => none
  | _ + 1, s, none => some (.ok (), s)
  | fuel + 1, s, some e =>
    match csVisit j T fuel s e with
    | none => none
    | some (.error r, s) => some (.error r, s)
    | some (.ok (), s) => listLoop w fuel s (nextEntry (s.list w) e)

/-- `gsgpu_cs_list_validate`. -/
def csListValidate (w : Which) (fuel : ℕ) (s : Parser) : Option (Except Errno Unit × Parser) :=
  listLoop j T w fuel s (s.list w).head?

end Gsgpu.Validation
