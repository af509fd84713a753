import Gsgpu.Vm.Operations

/-! The page table updates of `gsgpu_vm.c`, over the flat page table: `gsgpu_vm_bo_update_mapping`
writes its whole range or, when the budget of successful calls is used up, fails and changes
nothing. An update that reads past a list of nodes, or that never ends, has no result. -/
namespace Gsgpu.Vm

/-- What an update is given besides the state: how long its loops may run, and the values found
in the uninitialised `max_entries`, by mapping start and iteration. -/
structure UpdateEnv where
  fuel : ℕ
  maxEntries : ℕ → ℕ → ℕ

/-- An update that has returned: whether with 0, the calls left, and what it leaves. -/
structure Result (α : Type) where
  ok : Bool
  budget : ℕ
  val : α

/-- Write `[start, last]` of the flat page table; entry `i` of the range gets `entry i`. -/
def writeRange (pte : ℕ → Pte) (start last : ℕ) (entry : ℕ → Pte) : ℕ → Pte :=
  fun p => if start ≤ p ∧ p ≤ last then entry (p - start) else pte p

/-- Where `gsgpu_vm_bo_split_mapping` takes its addresses from. -/
inductive Source
  | pages (dma : ℕ → ℕ)
  | nodes (nodes : List Node)
  | none

/-- `GSGPU_VM_MAX_UPDATE_SIZE`. -/
def vmMaxUpdateSize : ℕ := 1024

/-- `gsgpu_vm_bo_update_mapping`: with DMA pages, `addr` is an offset into them. -/
def vmBoUpdateMapping (pte : ℕ → Pte) (pages : Option (ℕ → ℕ)) (start last flags addr : ℕ) :
    ℕ → Pte :=
  writeRange pte start last fun i =>
    match pages with
    | some dma => ⟨dma ((addr + i * gpuPageSize) / pageSize), flags⟩
    | none => ⟨addr + i * gpuPageSize, flags⟩

/-- The first loop of `gsgpu_vm_bo_split_mapping`: the node that holds page `pfn`. -/
def seekNode : List Node → ℕ → Option (List Node × ℕ)
  | [], _ => none
  | n :: rest, pfn => if n.size ≤ pfn then seekNode rest (pfn - n.size) else some (n :: rest, pfn)

/-- What one round of the loop uses: the DMA pages, `addr` and `max_entries`. `none` is a read
past the nodes. -/
def splitRound (src : Source) (pfn uninit : ℕ) : Option (Option (ℕ → ℕ) × ℕ × ℕ) :=
  match src with
  | .pages dma => some (some dma, pfn * pageSize, vmMaxUpdateSize)
  | .nodes [] => none
  | .nodes (n :: _) => some (none, n.start * pageSize + pfn * pageSize + vramBaseOffset, n.size - pfn)
  | .none => some (none, 0, uninit)

/-- The step to the next node. -/
def splitNext (src : Source) (pfn : ℕ) : Source × ℕ :=
  match src with
  | .nodes (n :: rest) => if n.size = pfn then (.nodes rest, 0) else (.nodes (n :: rest), pfn)
  | src => (src, pfn)

/-- The second loop of `gsgpu_vm_bo_split_mapping`. -/
def splitLoop (maxEntries : ℕ → ℕ) (last flags : ℕ) :
    ℕ → ℕ → Source → ℕ → ℕ → ℕ → (ℕ → Pte) → Option (Result (ℕ → Pte))
  | 0, _, _, _, _, _, _ => none
  | fuel + 1, round, src, pfn, start, budget, pte =>
    match splitRound src pfn (maxEntries round) with
    | none => none
    | some (pages, addr, max) =>
      let last' := min last (u64 (start + max + (2 ^ 64 - 1)))
      if budget = 0 then some ⟨false, 0, pte⟩
      else
        let pte := vmBoUpdateMapping pte pages start last' flags addr
        let (src, pfn) := splitNext src (u64 (pfn + (last' + 1 + 2 ^ 64 - start)))
        let start := u64 (last' + 1)
        if start = last + 1 then some ⟨true, budget - 1, pte⟩
        else splitLoop maxEntries last flags fuel (round + 1) src pfn start (budget - 1) pte

/-- `GSGPU_PTE_WRITEABLE`, cleared unless the mapping has it. -/
def maskWriteable (mapping : Mapping) (flags : ℕ) : ℕ :=
  if mapping.flags.testBit 3 then flags else flags &&& (2 ^ 64 - 1 - 2 ^ 3)

/-- `gsgpu_vm_bo_split_mapping`. -/
def vmBoSplitMapping (env : UpdateEnv) (src : Source) (m : Mapping) (flags budget : ℕ)
    (pte : ℕ → Pte) : Option (Result (ℕ → Pte)) :=
  let flags := maskWriteable m flags
  let pfn := m.offset / pageSize
  match src with
  | .nodes nodes =>
    match seekNode nodes pfn with
    | none => none
    | some (nodes, pfn) => splitLoop (env.maxEntries m.start) m.last flags env.fuel 0
        (.nodes nodes) pfn m.start budget pte
  | src => splitLoop (env.maxEntries m.start) m.last flags env.fuel 0 src pfn m.start budget pte

/-- `gsgpu_ttm_tt_pte_flags`; `gart_pte_flags` is 0. -/
def ttmTtPteFlags (mem : Option Mem) (readonly : Bool) : ℕ :=
  (if (mem.map Mem.resident).getD false then 2 ^ 0 else 0) ||| (if readonly then 0 else 2 ^ 3)

/-- `GSGPU_GEM_CREATE_COMPRESSED_MASK`. -/
def compressedMask : ℕ := 0x7 <<< 9

/-- `GSGPU_PTE_COMPRESSED_SHIFT`. -/
def pteCompressedShift : ℕ := 5

/-- The flags and the source of `gsgpu_vm_bo_update`. -/
def updateSource (bo : Option Bo) (clear : Bool) : ℕ × Source :=
  match bo with
  | none => (0, .none)
  | some bo =>
    let mem := if clear then none else some bo.mem
    let flags := ttmTtPteFlags mem bo.readonly ||| (bo.flags &&& compressedMask) >>> pteCompressedShift
    (flags, match mem with
      | some (.tt dma) => .pages dma
      | some (.vram nodes) => .nodes nodes
      | _ => .none)

/-- The loop of `gsgpu_vm_bo_update` over the invalid mappings. -/
def updateMappings (env : UpdateEnv) (flags : ℕ) (src : Source) :
    List Mapping → ℕ → (ℕ → Pte) → Option (Result (ℕ → Pte))
  | [], budget, pte => some ⟨true, budget, pte⟩
  | m :: ms, budget, pte =>
    match vmBoSplitMapping env src m flags budget pte with
    | none => none
    | some ⟨false, budget, pte⟩ => some ⟨false, budget, pte⟩
    | some ⟨true, budget, pte⟩ => updateMappings env flags src ms budget pte

/-- The lists of a `bo_va` as `gsgpu_vm_bo_update` starts: everything is invalid when the BO has
moved, or when the kind of update changes. -/
def BoVa.prepare (b : BoVa) (clear : Bool) : BoVa :=
  if !clear && b.moved then
    { b with moved := false, valids := [], invalids := b.valids ++ b.invalids }
  else if b.cleared != clear then { b with valids := [], invalids := b.valids ++ b.invalids }
  else b

/-- The BO of a `bo_va`. -/
def State.boOf (s : State) (k : Key) : Option Bo := k.map s.bos

/-- The end of `gsgpu_vm_bo_update`: where the `vm_status` node goes. -/
def statusAfterUpdate (s : State) (k : Key) : Status :=
  let st := s.status.unlink k
  match s.boOf k with
  | none => st
  | some bo =>
    if bo.perVm then
      if bo.preferred bo.mem then { st with idle := k :: st.idle }
      else { st with evicted := st.evicted ++ [k] }
    else st

/-- `gsgpu_vm_bo_update`. -/
def vmBoUpdate (env : UpdateEnv) (s : State) (k : Key) (clear : Bool) (budget : ℕ) :
    Option (Result State) :=
  match s.boVas k with
  | none => some ⟨true, budget, s⟩
  | some b =>
    let (flags, src) := updateSource (s.boOf k) clear
    let b := b.prepare clear
    match updateMappings env flags src b.invalids budget s.pte with
    | none => none
    | some ⟨false, budget, pte⟩ => some ⟨false, budget, { s.setBoVa k b with pte := pte }⟩
    | some ⟨true, budget, pte⟩ => some ⟨true, budget, { s.setBoVa k
        { b with cleared := clear, valids := b.invalids ++ b.valids, invalids := [] } with
        pte := pte, status := statusAfterUpdate s k }⟩

/-- The loop of `gsgpu_vm_clear_freed`: a mapping is taken off the list and freed before the
result of the update is looked at. -/
def clearFreedLoop : List Mapping → ℕ → (ℕ → Pte) → Result (List Mapping × (ℕ → Pte))
  | [], budget, pte => ⟨true, budget, [], pte⟩
  | m :: ms, budget, pte =>
    if budget = 0 then ⟨false, 0, ms, pte⟩
    else clearFreedLoop ms (budget - 1) (vmBoUpdateMapping pte none m.start m.last 0 0)

/-- `gsgpu_vm_clear_freed`. -/
def vmClearFreed (s : State) (budget : ℕ) : Result State :=
  let r := clearFreedLoop s.freed budget s.pte
  ⟨r.ok, r.budget, { s with freed := r.val.1, pte := r.val.2 }⟩

/-- The loop of `gsgpu_vm_handle_moved` over the spliced list. `trylock` answers
`reservation_object_trylock`; per-VM BOs are never cleared. -/
def handleMovedLoop (env : UpdateEnv) (trylock : Key → Bool) :
    List Key → ℕ → State → Option (Result State)
  | [], budget, s => some ⟨true, budget, s⟩
  | k :: ks, budget, s =>
    let clear := !s.perVm k && !trylock k
    match vmBoUpdate env s k clear budget with
    | none => none
    | some ⟨false, budget, s⟩ =>
      -- what has not been handled goes back to `vm->moved`
      some ⟨false, budget, { s with status := { s.status with moved := (k :: ks) ++ s.status.moved } }⟩
    | some ⟨true, budget, s⟩ => handleMovedLoop env trylock ks budget s

/-- `gsgpu_vm_handle_moved`. -/
def vmHandleMoved (env : UpdateEnv) (trylock : Key → Bool) (s : State) (budget : ℕ) :
    Option (Result State) :=
  handleMovedLoop env trylock s.status.moved budget
    { s with status := { s.status with moved := [] } }

end Gsgpu.Vm
