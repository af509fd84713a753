import Gsgpu.Lib.Prog
import Gsgpu.Vm.State

/-! The page table tree of a VM in `gsgpu_vm.c`: its allocation, and the updates of its entries
and directories. What an update does to the tables' memory is left to `params->func`, so the
loops are stated once for the CPU, for the XDMA and for the entries' meaning. -/
namespace Gsgpu.PageTable
open Gsgpu.Vm (u64)

/-- A page directory or page table, by the indices that lead to it from the root, the last one
first: the root is `[]`, and `bo->parent` of `i :: t` is `t`. -/
abbrev Table := List ℕ

/-- The BO of a table or its shadow. -/
inductive Copy
  | main
  | shadow
deriving DecidableEq

/-- `GSGPU_VM_DIR2`, the level of the leaf tables; the root is at level 0. -/
def vmDir2 : ℕ := 2

/-- `gsgpu_vm_level_shift`. -/
def vmLevelShift : ℕ → ℕ
  | 0 => 36 - 14
  | 1 => 25 - 14
  | 2 => 0
  | _ => 0xff

/-- `gsgpu_vm_num_entries`. -/
def vmNumEntries : ℕ → ℕ
  | 0 => 1 <<< 4
  | 1 => 1 <<< 11
  | 2 => 1 <<< 11
  | _ => 1 <<< 0

/-- `GSGPU_VM_PTE_COUNT`. -/
def vmPteCount : ℕ := 1 <<< 11

/-- `vm_manager.max_pfn`, for the 40 bits of the device's address space. -/
def maxPfn : ℕ := 2 ^ 26

/-- `pde_pte_bytes`. -/
def pdePteSize : ℕ := 8

/-- `GSGPU_PTE_PRESENT`. -/
def ptePresent : ℕ := 1 <<< 0

/-- `GSGPU_PTE_HUGEPAGE`. -/
def pteHugepage : ℕ := 1 <<< 1

/-- `struct gsgpu_vm_pt`: whether it has its BO and its array of entries, and its state. -/
structure Pt where
  bo : Bool
  entries : Bool
  huge : Bool
  moved : Bool

/-- The tree of a VM. `shadow` says whether its tables have shadows, `relocated` is the list of
those whose directory entry is out of date, and `mem` is what holds the tables' contents. -/
structure Tree (σ : Type) where
  shadow : Bool
  pt : Table → Pt
  relocated : List Table
  mem : σ

/-- Accesses the code has no right to make. -/
inductive Fault
  | index
  | nullBo

/-- `struct gsgpu_pte_update_params`: the BO, `pe`, `addr`, `count`, `incr` and `flags` are the
arguments of `func`. `full` says that the IB has no room for another directory entry, and
`submit` runs and drops it. -/
structure Params (σ : Type) where
  src : ℕ
  func : Copy → Table → ℕ → ℕ → ℕ → ℕ → ℕ → σ → σ
  full : σ → Bool
  submit : σ → σ

/-- `gsgpu_vm_map_gart`. -/
def vmMapGart (pagesAddr : ℕ → ℕ) (addr : ℕ) : ℕ :=
  (pagesAddr (addr / pageSize) ||| addr % pageSize) &&& (2 ^ 64 - 2 ^ gpuPageShift)

variable {σ : Type}

namespace Tree

/-- Change the state of one table. -/
def setPt (T : Tree σ) (t : Table) (f : Pt → Pt) : Tree σ :=
  { T with pt := fun t' => if t' = t then f (T.pt t) else T.pt t' }

/-- `list_move(&entry->base.vm_status, &vm->relocated)`. -/
def relocate (T : Tree σ) (t : Table) : Tree σ :=
  { T with relocated := t :: T.relocated.erase t }

/-- `params->func` on the shadow of a table, when it has one, and on the table. -/
def write (p : Params σ) (t : Table) (pe addr count incr flags : ℕ) (T : Tree σ) : Tree σ :=
  let mem := if T.shadow then p.func .shadow t pe addr count incr flags T.mem else T.mem
  { T with mem := p.func .main t pe addr count incr flags mem }

end Tree

/-- What the kernel answers to one call of `gsgpu_vm_alloc_pts`: whether there is memory for the
array of a table's entries, and how creating, clearing and mapping a BO fails. -/
structure AllocEnv where
  entries : Table → Bool
  create : Table → Option Errno

/-- The array of a directory's entries, all of them empty. -/
def allocEntries (env : AllocEnv) (t : Table) : Prog Fault Errno (Tree σ) Unit := do
  if (← Prog.gets fun T => (T.pt t).entries) then
    pure ()
  else
    Prog.require (env.entries t) .enomem
    Prog.modify fun T => T.setPt t fun e => { e with entries := true }

/-- A new table, cleared with its shadow and put on the list by `gsgpu_vm_bo_base_init`. -/
def allocTable (env : AllocEnv) (clear : Copy → Table → σ → σ) (t : Table) :
    Prog Fault Errno (Tree σ) Unit := do
  if (← Prog.gets fun T => (T.pt t).bo) then
    pure ()
  else
    match env.create t with
    | some e => Prog.fail e
    | none =>
      Prog.modify fun T =>
        let mem := clear .main t T.mem
        let T := { T with mem := if T.shadow then clear .shadow t mem else mem }
        (T.setPt t fun e => { e with bo := true }).relocate t

/-- `gsgpu_vm_alloc_levels`, with the number of levels below `parent`. -/
def vmAllocLevels (env : AllocEnv) (clear : Copy → Table → σ → σ) :
    ℕ → Table → ℕ → ℕ → Prog Fault Errno (Tree σ) Unit
  | 0, _, _, _ => pure ()
  | n + 1, parent, saddr, eaddr => do
    allocEntries env parent
    let level := parent.length
    let shift := vmLevelShift level
    let first := saddr >>> shift
    let last := eaddr >>> shift
    Prog.require (first < vmNumEntries level && last < vmNumEntries level) .einval
    (List.range' first (last + 1 - first)).forM fun i => do
      allocTable env clear (i :: parent)
      if level + 1 < vmDir2 then
        vmAllocLevels env clear n (i :: parent) (if i = first then saddr % 2 ^ shift else 0)
          (if i = last then eaddr % 2 ^ shift else 2 ^ shift - 1)
      else
        pure ()

/-- `gsgpu_vm_alloc_pts`. -/
def vmAllocPts (env : AllocEnv) (clear : Copy → Table → σ → σ) (saddr size : ℕ) :
    Prog Fault Errno (Tree σ) Unit := do
  Prog.require (saddr % gpuPageSize == 0 && size % gpuPageSize == 0) .einval
  let eaddr := Vm.lastByte saddr size / gpuPageSize
  Prog.require (eaddr < maxPfn) .einval
  vmAllocLevels env clear vmDir2 [] (saddr / gpuPageSize) eaddr

/-- The loop of `gsgpu_vm_get_entry`, with the number of levels below `entry`; the parent of the
entry it returns is its tail. A leaf has no array of entries. -/
def getEntryFrom (pt : Table → Pt) : ℕ → Table → ℕ → Except Fault (Option Table)
  | 0, entry, _ => .ok (some entry)
  | n + 1, entry, addr =>
    if (pt entry).entries then
      let shift := vmLevelShift entry.length
      let i := addr >>> shift
      if i < vmNumEntries entry.length then getEntryFrom pt n (i :: entry) (addr % 2 ^ shift)
      else .error .index
    else .ok none

/-- `gsgpu_vm_get_entry`. -/
def vmGetEntry (addr : ℕ) : Prog Fault Errno (Tree σ) (Option Table) := fun T =>
  match getEntryFrom T.pt vmDir2 [] addr with
  | .error f => .error f
  | .ok entry => .ok (.ok entry, T)

/-- The offset of an entry in its directory. -/
def entryOffset (entry : Table) : ℕ := entry.headD 0 * pdePteSize

/-- The flags of a directory entry: in the case of a mixed PT it must point to it, else the
huge page flag stops the scan there. -/
def hugeFlags (p : Params σ) (nptes flags : ℕ) : ℕ :=
  if p.src = 0 ∧ nptes = vmPteCount then flags ||| pteHugepage else flags

/-- `gsgpu_vm_handle_huge_pages`. -/
def vmHandleHugePages (p : Params σ) (entry : Table) (nptes dst flags : ℕ) (T : Tree σ) :
    Tree σ :=
  if (hugeFlags p nptes flags).testBit 1 then
    (T.setPt entry fun e => { e with huge := true }).write p entry.tail (entryOffset entry)
      dst 1 0 (hugeFlags p nptes flags)
  else if (T.pt entry).huge then
    (T.setPt entry fun e => { e with huge := false }).relocate entry
  else T

/-- The number of entries one turn of `gsgpu_vm_update_ptes` writes. -/
def blockPtes (addr fin : ℕ) : ℕ :=
  if addr / vmPteCount = fin / vmPteCount then fin - addr
  else vmPteCount - addr % vmPteCount

/-- One turn of the loop of `gsgpu_vm_update_ptes`. -/
def updateBlock (p : Params σ) (addr nptes dst flags : ℕ) : Prog Fault Errno (Tree σ) Unit := do
  match ← vmGetEntry addr with
  | none => Prog.fail .enoent
  | some entry =>
    Prog.modify (vmHandleHugePages p entry nptes dst flags)
    if (← Prog.gets fun T => (T.pt entry).huge) then
      pure ()
    else
      let bo ← Prog.gets fun T => (T.pt entry).bo
      Prog.deref .nullBo (if bo then some () else none)
      Prog.modify (Tree.write p entry (addr % vmPteCount * pdePteSize) dst nptes gpuPageSize flags)

theorem blockPtes_pos {addr fin : ℕ} (h : addr < fin) : 0 < blockPtes addr fin := by
  unfold blockPtes
  split
  · omega
  · have : addr % vmPteCount < vmPteCount := Nat.mod_lt _ (by decide)
    omega

/-- `gsgpu_vm_update_ptes`. -/
def vmUpdatePtes (p : Params σ) (addr fin dst flags : ℕ) : Prog Fault Errno (Tree σ) Unit :=
  if addr < fin then do
    let nptes := blockPtes addr fin
    updateBlock p addr nptes dst flags
    vmUpdatePtes p (addr + nptes) fin (u64 (dst + nptes * gpuPageSize)) flags
  else pure ()
termination_by fin - addr
decreasing_by
  have := blockPtes_pos ‹addr < fin›
  omega

/-- `gsgpu_vm_update_pde`; `offset` gives the GPU address of a table. -/
def vmUpdatePde (p : Params σ) (offset : Table → ℕ) (entry : Table) (T : Tree σ) : Tree σ :=
  if (T.pt entry).huge then T
  else T.write p entry.tail (entryOffset entry) (offset entry) 1 0 ptePresent

/-- One pass of `gsgpu_vm_update_directories`, until the list is empty or the IB full. -/
def directoriesPass (p : Params σ) (offset : Table → ℕ) : List Table → Tree σ → Tree σ
  | [], T => { T with relocated := [] }
  | t :: ts, T =>
    let T := { T.setPt t (fun e => { e with moved := false }) with relocated := ts }
    if t = [] then directoriesPass p offset ts T
    else
      let T := vmUpdatePde p offset t T
      if p.full T.mem then T else directoriesPass p offset ts T

/-- The passes of `gsgpu_vm_update_directories`, each with its own IB. -/
def directoriesPasses (p : Params σ) (offset : Table → ℕ) : ℕ → Tree σ → Tree σ
  | 0, T => T
  | n + 1, T =>
    if T.relocated = [] then T
    else
      let T := directoriesPass p offset T.relocated T
      directoriesPasses p offset n { T with mem := p.submit T.mem }

/-- `gsgpu_vm_update_directories` when it returns 0. Every pass takes an entry off the list, so
that its length bounds their number. -/
def vmUpdateDirectories (p : Params σ) (offset : Table → ℕ) (T : Tree σ) : Tree σ :=
  directoriesPasses p offset T.relocated.length T

end Gsgpu.PageTable
