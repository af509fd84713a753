import Gsgpu.Basic
import Mathlib.Data.List.Sort
import Mathlib.Logic.Function.Basic

/-! The state of one GPU address space: its mappings, the BOs they show, and the page table as a
flat map from page frame numbers to entries. A `bo_va` is named by its BO, since a VM has at most
one for each, and the PRT `bo_va`, which has no BO, by `none`. BOs here are user BOs: page tables
and directories are not among them. -/
namespace Gsgpu.Vm

/-- The name of a `struct gsgpu_bo_va`. -/
abbrev Key := Option ℕ

/-- `struct gsgpu_bo_va_mapping`. Page frame numbers, inclusive; `offset` is in bytes. -/
structure Mapping where
  boVa : Key
  start : ℕ
  last : ℕ
  offset : ℕ
  flags : ℕ
deriving DecidableEq

/-- The mapping shows something at `pfn`. -/
def Mapping.Covers (m : Mapping) (pfn : ℕ) : Prop := m.start ≤ pfn ∧ pfn ≤ m.last

instance (m : Mapping) (pfn : ℕ) : Decidable (m.Covers pfn) :=
  inferInstanceAs (Decidable (_ ∧ _))

/-- No page frame number is covered twice. -/
def Mapping.Disjoint (m m' : Mapping) : Prop := m.last < m'.start ∨ m'.last < m.start

instance (m m' : Mapping) : Decidable (m.Disjoint m') := inferInstanceAs (Decidable (_ ∨ _))

/-- `struct drm_mm_node`, in pages. A node is not empty, and addresses have 64 bits. -/
structure Node where
  start : ℕ
  size : ℕ
  size_pos : 0 < size
  size_lt : size < 2 ^ 50
deriving DecidableEq

/-- `struct ttm_mem_reg`: where a BO is. -/
inductive Mem
  | system
  | tt (dmaAddress : ℕ → ℕ)
  | vram (nodes : List Node)

/-- Whether the BO has a place the GPU can reach. -/
def Mem.resident : Mem → Bool
  | system => false
  | tt _ => true
  | vram _ => true

/-- `vm_manager.vram_base_offset`. -/
def vramBaseOffset : ℕ := 0x1000000000000

/-- The address of page `i` of a list of nodes. -/
def nodeAddr : List Node → ℕ → ℕ
  | [], _ => 0
  | n :: rest, i =>
    if i < n.size then (n.start + i) * gpuPageSize + vramBaseOffset else nodeAddr rest (i - n.size)

/-- The address of page `i` of a BO. -/
def Mem.pageAddr : Mem → ℕ → ℕ
  | system, _ => 0
  | tt dma, i => dma i
  | vram nodes, i => nodeAddr nodes i

/-- What the VM code reads of `struct gsgpu_bo`. `perVm` says that the BO shares the root
directory's reservation object, `preferred` whether a placement is in its preferred domains. -/
structure Bo where
  size : ℕ
  mem : Mem
  perVm : Bool
  preferred : Mem → Bool
  readonly : Bool
  flags : ℕ

/-- `struct gsgpu_bo_va`, less the node in `vm_status`. -/
structure BoVa where
  refCount : ℕ
  moved : Bool
  cleared : Bool
  valids : List Mapping
  invalids : List Mapping

/-- The lists a `vm_status` node can be on. -/
structure Status where
  evicted : List Key
  relocated : List Key
  moved : List Key
  idle : List Key

/-- A page table entry. -/
structure Pte where
  addr : ℕ
  flags : ℕ
deriving DecidableEq

/-- `GSGPU_PTE_PRESENT`. -/
def Pte.present (e : Pte) : Bool := e.flags.testBit 0

/-- `struct gsgpu_vm`, with the flat page table and the BOs. -/
structure State where
  va : List Mapping
  boVas : Key → Option BoVa
  freed : List Mapping
  status : Status
  pte : ℕ → Pte
  bos : ℕ → Bo

/-- The mappings on the two lists of a `bo_va`. -/
def listsOf (boVas : Key → Option BoVa) (k : Key) : List Mapping :=
  match boVas k with
  | none => []
  | some b => b.valids ++ b.invalids

/-- Whether the `bo_va` is of a per-VM BO. -/
def State.perVm (s : State) : Key → Bool
  | none => false
  | some b => (s.bos b).perVm

/-- A 64-bit value. -/
def u64 (n : ℕ) : ℕ := n % 2 ^ 64

/-- `saddr + size - 1`, in 64 bits. -/
def lastByte (saddr size : ℕ) : ℕ := u64 (saddr + size + (2 ^ 64 - 1))

/-- The last byte of a range that does not wrap around. -/
theorem lastByte_of_le {saddr size : ℕ} (hsize : 0 < size) (hle : saddr + size ≤ 2 ^ 64) :
    lastByte saddr size = saddr + size - 1 := by
  have hsum : saddr + size + (2 ^ 64 - 1) = saddr + size - 1 + 2 ^ 64 := by omega
  rw [lastByte, u64, hsum, Nat.add_mod_right, Nat.mod_eq_of_lt (by omega)]

theorem lastByte_div_lt (saddr size : ℕ) : lastByte saddr size / gpuPageSize < 2 ^ 50 := by
  unfold lastByte u64 gpuPageSize gpuPageShift
  omega

/-- `vm_manager.max_pfn`. -/
def maxPfn : ℕ := 2 ^ 26

/-- `gsgpu_vm_it_insert`: the interval tree, as the list of its mappings by start. -/
def vmItInsert (m : Mapping) (va : List Mapping) : List Mapping :=
  va.orderedInsert (fun a b => a.start ≤ b.start) m

/-- The mapping overlaps `[s, e]`, in the sense of the interval tree. -/
def Mapping.Overlaps (m : Mapping) (s e : ℕ) : Prop := m.start ≤ e ∧ s ≤ m.last

instance (m : Mapping) (s e : ℕ) : Decidable (m.Overlaps s e) :=
  inferInstanceAs (Decidable (_ ∧ _))

/-- `gsgpu_vm_it_iter_first` and `gsgpu_vm_it_iter_next`: the mappings that overlap `[s, e]`. -/
def vmItIter (va : List Mapping) (s e : ℕ) : List Mapping :=
  va.filter fun m => m.Overlaps s e

namespace Status

/-- `list_del_init(&base->vm_status)`. -/
def unlink (st : Status) (k : Key) : Status :=
  ⟨st.evicted.erase k, st.relocated.erase k, st.moved.erase k, st.idle.erase k⟩

/-- `list_move(&base->vm_status, &vm->moved)`. -/
def moveToMoved (st : Status) (k : Key) : Status :=
  let st := st.unlink k
  { st with moved := k :: st.moved }

/-- `list_move_tail(&base->vm_status, &vm->evicted)`. -/
def moveToEvicted (st : Status) (k : Key) : Status :=
  let st := st.unlink k
  { st with evicted := st.evicted ++ [k] }

/-- The nodes on some list. -/
def all (st : Status) : List Key := st.evicted ++ st.relocated ++ st.moved ++ st.idle

end Status

/-- Put a `bo_va` back. -/
def State.setBoVa (s : State) (k : Key) (b : BoVa) : State :=
  { s with boVas := Function.update s.boVas k (some b) }

/-- `list_add(&mapping->list, &bo_va->invalids)`. -/
def addInvalid (boVas : Key → Option BoVa) (m : Mapping) : Key → Option BoVa :=
  match boVas m.boVa with
  | none => boVas
  | some b => Function.update boVas m.boVa (some { b with invalids := m :: b.invalids })

/-- `list_del(&mapping->list)`: off whichever list of its `bo_va` it is on. -/
def delMapping (boVas : Key → Option BoVa) (m : Mapping) : Key → Option BoVa :=
  match boVas m.boVa with
  | none => boVas
  | some b => Function.update boVas m.boVa (some
      (if m ∈ b.valids then { b with valids := b.valids.erase m }
        else { b with invalids := b.invalids.erase m }))

end Gsgpu.Vm
