import Gsgpu.Vm.State

/-! The operations of `gsgpu_vm.c` on the mappings of a VM, none of which touches the page table.
Allocations that may fail are answered by the caller's flags. -/
namespace Gsgpu.Vm

/-- `gsgpu_vm_bo_base_init` and `gsgpu_vm_bo_add`. A per-VM BO outside its preferred domains
goes to the evicted list at once. -/
def vmBoAdd (s : State) (k : Key) : State :=
  match k with
  | none => s.setBoVa none ⟨1, false, false, [], []⟩
  | some b =>
    let bo := s.bos b
    if bo.perVm && !bo.preferred bo.mem then
      { s.setBoVa (some b) ⟨1, true, false, [], []⟩ with status := s.status.moveToEvicted (some b) }
    else s.setBoVa (some b) ⟨1, false, false, [], []⟩

/-- `gsgpu_vm_bo_insert_map`, for the `bo_va` the mapping names. -/
def vmBoInsertMap (s : State) (m : Mapping) : State :=
  let s' := { s with boVas := addInvalid s.boVas m, va := vmItInsert m s.va }
  match s.boVas m.boVa with
  | some b => if s.perVm m.boVa && !b.moved then
      { s' with status := s.status.moveToMoved m.boVa } else s'
  | none => s'

/-- The parameter check of `gsgpu_vm_bo_map` and `gsgpu_vm_bo_replace_map`. `offset + size` is
computed in 64 bits. -/
def mapParamsOk (s : State) (k : Key) (saddr offset size : ℕ) : Bool :=
  saddr % gpuPageSize = 0 && offset % gpuPageSize = 0 && size ≠ 0 && size % gpuPageSize = 0 &&
    decide (saddr < lastByte saddr size) &&
    match k with
    | none => true
    | some b => decide (u64 (offset + size) ≤ (s.bos b).size)

/-- The mapping that a request asks for. -/
def requested (k : Key) (saddr offset size flags : ℕ) : Mapping :=
  ⟨k, saddr / gpuPageSize, lastByte saddr size / gpuPageSize, offset, flags⟩

/-- `gsgpu_vm_bo_map`. -/
def vmBoMap (allocOk : Bool) (s : State) (k : Key) (saddr offset size flags : ℕ) :
    Except Errno Unit × State :=
  if !mapParamsOk s k saddr offset size then (.error .einval, s)
  else
    let m := requested k saddr offset size flags
    if vmItIter s.va m.start m.last ≠ [] then (.error .einval, s)
    else if !allocOk then (.error .enomem, s)
    else (.ok (), vmBoInsertMap s m)

/-- What `gsgpu_vm_bo_clear_mappings` has gathered so far. -/
structure ClearAcc where
  boVas : Key → Option BoVa
  before : Option Mapping
  after : Option Mapping

/-- The part of `tmp` before the cleared range. -/
def beforePart (s : ℕ) (tmp : Mapping) : Mapping := { tmp with last := s - 1 }

/-- The part of `tmp` after the cleared range. `offset` is in bytes, and what is added to it is
a number of pages. -/
def afterPart (e : ℕ) (tmp : Mapping) : Mapping :=
  { tmp with start := e + 1, offset := u64 (tmp.offset + (e + 1 - tmp.start)) }

/-- "Remember mapping split at the start". -/
def keepBefore (s : ℕ) (acc : ClearAcc) (tmp : Mapping) : ClearAcc :=
  if tmp.start < s then
    { acc with before := some (beforePart s tmp), boVas := addInvalid acc.boVas (beforePart s tmp) }
  else acc

/-- "Remember mapping split at the end". -/
def keepAfter (e : ℕ) (acc : ClearAcc) (tmp : Mapping) : ClearAcc :=
  if e < tmp.last then
    { acc with after := some (afterPart e tmp), boVas := addInvalid acc.boVas (afterPart e tmp) }
  else acc

/-- One mapping of the gathering loop: remember its splits, take it off its list. -/
def clearStep (s e : ℕ) (acc : ClearAcc) (tmp : Mapping) : ClearAcc :=
  let acc := keepAfter e (keepBefore s acc tmp) tmp
  { acc with boVas := delMapping acc.boVas tmp }

/-- What is left of a removed mapping on `vm->freed`. -/
def clip (s e : ℕ) (tmp : Mapping) : Mapping :=
  { tmp with start := max tmp.start s, last := min tmp.last e }

/-- `gsgpu_vm_it_insert` of a split that is there. -/
def insertSplit : Option Mapping → List Mapping → List Mapping
  | none, va => va
  | some m, va => vmItInsert m va

/-- `gsgpu_vm_bo_clear_mappings` once the memory it needs is there, on page frame numbers. -/
def clearRange (st : State) (s e : ℕ) : State :=
  let tmps := vmItIter st.va s e
  let acc := tmps.foldl (clearStep s e) ⟨st.boVas, none, none⟩
  { st with
    boVas := acc.boVas
    va := insertSplit acc.after (insertSplit acc.before (tmps.foldl List.erase st.va))
    freed := tmps.map (clip s e) ++ st.freed }

/-- `gsgpu_vm_bo_clear_mappings`. Neither the alignment nor a wrap of the range is checked. -/
def vmBoClearMappings (beforeOk afterOk : Bool) (st : State) (saddr size : ℕ) :
    Except Errno Unit × State :=
  if !(beforeOk && afterOk) then (.error .enomem, st)
  else (.ok (), clearRange st (saddr / gpuPageSize) (lastByte saddr size / gpuPageSize))

/-- `gsgpu_vm_bo_replace_map`. -/
def vmBoReplaceMap (allocOk beforeOk afterOk : Bool) (s : State) (k : Key)
    (saddr offset size flags : ℕ) : Except Errno Unit × State :=
  if !mapParamsOk s k saddr offset size then (.error .einval, s)
  else if !allocOk then (.error .enomem, s)
  else
    match vmBoClearMappings beforeOk afterOk s saddr size with
    | (.error e, s) => (.error e, s)
    | (.ok (), s) => (.ok (), vmBoInsertMap s (requested k saddr offset size flags))

/-- `gsgpu_vm_bo_unmap`. A mapping on the valid list is queued for clearing, one on the invalid
list is dropped at once. -/
def vmBoUnmap (s : State) (k : Key) (saddr : ℕ) : Except Errno Unit × State :=
  match s.boVas k with
  | none => (.error .enoent, s)
  | some b =>
    match b.valids.find? fun m => m.start = saddr / gpuPageSize with
    | some m => (.ok (), { s with
        boVas := delMapping s.boVas m, va := s.va.erase m, freed := m :: s.freed })
    | none =>
      match b.invalids.find? fun m => m.start = saddr / gpuPageSize with
      | some m => (.ok (), { s with boVas := delMapping s.boVas m, va := s.va.erase m })
      | none => (.error .enoent, s)

/-- `gsgpu_vm_bo_rmv`. -/
def vmBoRmv (s : State) (k : Key) : State :=
  match s.boVas k with
  | none => s
  | some b => { s with
      status := s.status.unlink k
      va := (b.valids ++ b.invalids).foldl List.erase s.va
      freed := b.valids.reverse ++ s.freed
      boVas := Function.update s.boVas k none }

/-- `gsgpu_vm_bo_invalidate`, as far as it reaches this VM. -/
def vmBoInvalidate (s : State) (b : ℕ) (evicted : Bool) : State :=
  match s.boVas (some b) with
  | none => s
  | some bv =>
    let s' := s.setBoVa (some b) { bv with moved := true }
    if evicted && (s.bos b).perVm then
      { s' with status := s.status.moveToEvicted (some b) }
    else if bv.moved then s'
    else { s' with status := s.status.moveToMoved (some b) }

/-- `gsgpu_bo_move_notify` and the move it announces. -/
def boMove (s : State) (b : ℕ) (evicted : Bool) (mem : Mem) : State :=
  let s := vmBoInvalidate s b evicted
  { s with bos := Function.update s.bos b { s.bos b with mem := mem } }

end Gsgpu.Vm
