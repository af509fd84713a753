import Gsgpu.BoList.EntryArray
import Gsgpu.Lib.Ledger
import Mathlib.Logic.Function.Basic

/-! `gsgpu_bo_list_ioctl` and the functions it calls, with an account of the references to BOs. The
entries of a new list are filled in from both ends of its array, ordinary BOs from the front and
userptr BOs from the back. -/
namespace Gsgpu.BoLists
open EntryArray

/-- `GSGPU_BO_LIST_MAX_PRIORITY`. -/
def maxPriority : UInt32 := 32

/-- What `gsgpu_bo_list_create` fills in of a `struct gsgpu_bo_list_entry`; BOs go by numbers. -/
structure Entry where
  robj : Option ℕ
  priority : UInt32
  shared : Bool
deriving DecidableEq

/-- An entry after the `memset`. -/
def Entry.zero : Entry := ⟨none, 0, false⟩

/-- `struct gsgpu_bo_list` with its array, whose length is `num_entries`. -/
structure BoList where
  refcount : ℕ
  firstUserptr : ℕ
  entries : List Entry

/-- The references to BOs, the lists by their addresses, the lists of a file by their handles, and
how many arrays of `gsgpu_bo_create_list_entry_array` have not been freed. -/
structure State where
  refs : ℕ → ℤ
  lists : ℕ → Option BoList
  handles : UInt32 → Option ℕ
  infos : ℕ

/-- What the functions outside `gsgpu_bo_list.c` answer, user memory, and the bytes that an array
has where nothing was written to it. -/
structure Env where
  arrayOk : Bool
  user : UserMem
  garbage : ℕ → UInt8
  listAddr : Option ℕ
  gemObjectLookup : ℕ → UInt32 → Option ℕ
  usermm : ℕ → Option ℕ
  currentMm : ℕ
  primeShared : ℕ → Bool
  idrAlloc : Except Errno UInt32

/-- `struct drm_gsgpu_bo_list_in`. -/
structure Request where
  operation : UInt32
  listHandle : UInt32
  boNumber : UInt32
  boInfoSize : UInt32
  boInfoPtr : UInt64

/-- `GSGPU_BO_LIST_OP_CREATE`. -/
def opCreate : UInt32 := 0
/-- `GSGPU_BO_LIST_OP_DESTROY`. -/
def opDestroy : UInt32 := 1
/-- `GSGPU_BO_LIST_OP_UPDATE`. -/
def opUpdate : UInt32 := 2

/-- Four bytes of the array as a number. -/
def readWord (garbage : ℕ → UInt8) (info : Info) (a : ℕ) : UInt32 :=
  let byte k := ((info (a + k)).getD (garbage (a + k))).toUInt32
  byte 0 ||| byte 1 <<< 8 ||| byte 2 <<< 16 ||| byte 3 <<< 24

/-- `info[0 .. n)`, as pairs of `bo_handle` and `bo_priority`. -/
def readEntries (garbage : ℕ → UInt8) (info : Info) (n : ℕ) : List (UInt32 × UInt32) :=
  (List.range n).map fun i => (readWord garbage info (8 * i), readWord garbage info (8 * i + 4))

/-- `gsgpu_bo_unref` on `e->robj`, which leaves a null pointer alone. -/
def unref (refs : ℕ → ℤ) (e : Entry) : ℕ → ℤ :=
  match e.robj with
  | none => refs
  | some bo => refs - Pi.single bo 1

/-- The variables of the loop of `gsgpu_bo_list_create`. -/
structure Filling where
  lastEntry : ℕ
  firstUserptr : ℕ
  array : List Entry
  refs : ℕ → ℤ

def Filling.ref (f : Filling) (bo : ℕ) : Filling := { f with refs := f.refs + Pi.single bo 1 }

/-- The entry that a BO is given. -/
def entryOf (env : Env) (bo : ℕ) (priority : UInt32) : Entry :=
  ⟨some bo, min priority maxPriority, !env.primeShared bo⟩

/-- The body of the loop of `gsgpu_bo_list_create`. -/
def createEntry (env : Env) (i : ℕ) (info : UInt32 × UInt32) (f : Filling) :
    Except Errno Unit × Filling :=
  match env.gemObjectLookup i info.1 with
  | none => (.error .enoent, f)
  | some bo =>
    let f := f.ref bo
    match env.usermm bo with
    | none =>
      (.ok (), { f with
        lastEntry := f.lastEntry + 1
        array := f.array.set f.lastEntry (entryOf env bo info.2) })
    | some mm =>
      if mm ≠ env.currentMm then (.error .eperm, { f with refs := f.refs - Pi.single bo 1 })
      else
        (.ok (), { f with
          firstUserptr := f.firstUserptr - 1
          array := f.array.set (f.firstUserptr - 1) (entryOf env bo info.2) })

/-- The loop of `gsgpu_bo_list_create`, with the index at which it leaves with an error. -/
def createLoop (env : Env) : ℕ → List (UInt32 × UInt32) → Filling → Except (Errno × ℕ) Unit × Filling
  | _, [], f => (.ok (), f)
  | i, info :: infos, f =>
    match createEntry env i info f with
    | (.error e, f) => (.error (e, i), f)
    | (.ok _, f) => createLoop env (i + 1) infos f

/-- `sizeof(struct gsgpu_bo_list)`. -/
def sizeofList : ℕ := 32
/-- `sizeof(struct gsgpu_bo_list_entry)`. -/
def sizeofEntry : ℕ := 72

/-- The variables in front of the loop. -/
def Filling.start (n : ℕ) (refs : ℕ → ℤ) : Filling := ⟨0, n, List.replicate n .zero, refs⟩

/-- `gsgpu_bo_list_create`: the address of the list. -/
def boListCreate (env : Env) (info : List (UInt32 × UInt32)) (s : State) :
    Except Errno ℕ × State :=
  if (2 ^ 64 - 1 - sizeofList) / sizeofEntry < info.length then (.error .einval, s)
  else
    match env.listAddr with
    | none => (.error .enomem, s)
    | some a =>
      match createLoop env 0 info (.start info.length s.refs) with
      -- the label error_free: the first `i` slots of the array are cleaned up
      | (.error (e, i), f) =>
        (.error e, { s with refs := (f.array.take i).reverse.foldl unref f.refs })
      | (.ok _, f) =>
        (.ok a, { s with
          refs := f.refs
          lists := Function.update s.lists a (some ⟨1, f.firstUserptr, f.array⟩) })

/-- `gsgpu_bo_list_put`, with `gsgpu_bo_list_free` for the last reference. -/
def boListPut (a : ℕ) (s : State) : State :=
  match s.lists a with
  | none => s
  | some list =>
    if list.refcount = 1 then
      { s with refs := list.entries.foldl unref s.refs, lists := Function.update s.lists a none }
    else
      { s with lists := Function.update s.lists a (some { list with refcount := list.refcount - 1 }) }

/-- `gsgpu_bo_list_destroy`. -/
def boListDestroy (id : UInt32) (s : State) : State :=
  match s.handles id with
  | none => s
  | some a => boListPut a { s with handles := Function.update s.handles id none }

/-- `kvfree(info)`. -/
def freeInfo (s : State) : State := { s with infos := s.infos - 1 }

/-- `gsgpu_bo_list_ioctl`: the handle it leaves in its argument. -/
def boListIoctl (env : Env) (req : Request) (s : State) : Except Errno UInt32 × State :=
  match boCreateListEntryArray env.arrayOk env.user req.boInfoPtr req.boNumber req.boInfoSize with
  | .error e => (.error e, s)
  | .ok array =>
    let info := readEntries env.garbage array req.boNumber.toNat
    let s := { s with infos := s.infos + 1 }
    if req.operation = opCreate then
      match boListCreate env info s with
      | (.error e, s) => (.error e, freeInfo s)
      | (.ok a, s) =>
        match env.idrAlloc with
        -- this return does not go through `error_free`
        | .error e => (.error e, boListPut a s)
        | .ok handle =>
          (.ok handle, freeInfo { s with handles := Function.update s.handles handle (some a) })
    else if req.operation = opDestroy then
      (.ok 0, freeInfo (boListDestroy req.listHandle s))
    else if req.operation = opUpdate then
      match boListCreate env info s with
      | (.error e, s) => (.error e, freeInfo s)
      | (.ok a, s) =>
        match s.handles req.listHandle with
        | none => (.error .enoent, freeInfo (boListPut a s))
        | some old =>
          (.ok req.listHandle, freeInfo (boListPut old
            { s with handles := Function.update s.handles req.listHandle (some a) }))
    else (.error .einval, freeInfo s)

end Gsgpu.BoLists
