import Gsgpu.Fill.Buffer
import Gsgpu.Vm.Update

/-! Moving a buffer: the jobs that `gsgpu_ttm_copy_mem_to_mem` submits to copy a range of one
region to another, with the windows of the GART it maps on the way. -/
namespace Gsgpu.Move
open Gsgpu.Vm (Node u64)
open Gsgpu.PageTable (u32 xdmaRows xdmaPitch xdmaCopy xdmaRingPadIb ibPoolSize)
open Memory (lower32 upper32)

/-- `GSGPU_GTT_MAX_TRANSFER_SIZE`, in pages. -/
def gttMaxTransferSize : ℕ := 512

/-- `GSGPU_GTT_NUM_TRANSFER_WINDOWS`. -/
def gttNumTransferWindows : ℕ := 2

/-- `GTT_MAX_BYTES`. -/
def gttMaxBytes : ℕ := gttMaxTransferSize * gpuPageSize

/-- `copy_max_bytes`. -/
def copyMaxBytes : ℕ := 0x3fffc0

/-- `copy_num_dw`. -/
def copyNumDw : ℕ := 9

/-- `GSGPU_BO_INVALID_OFFSET`, `LONG_MAX`. -/
def boInvalidOffset : ℕ := 2 ^ 63 - 1

/-! ### Regions -/

/-- The addresses of `struct gsgpu_gmc`, and of the GART's table in VRAM, as the driver sets them
up: GTT below VRAM, both page-aligned, and room for the windows. -/
structure Gmc where
  gartStart : ℕ
  gartPages : ℕ
  vramStart : ℕ
  vramPages : ℕ
  tableAddr : ℕ
  gart_aligned : gartStart % pageSize = 0
  vram_aligned : vramStart % pageSize = 0
  windows_le : gttNumTransferWindows * gttMaxTransferSize ≤ gartPages
  gart_le : gartStart + gartPages * pageSize ≤ vramStart
  vram_le : vramStart + vramPages * pageSize ≤ 2 ^ 64
  vramStart_le_table : vramStart ≤ tableAddr
  table_le : tableAddr + gartPages * 8 ≤ vramStart + vramPages * pageSize

/-- What is read of a BO and its `struct ttm_mem_reg`: whether it is in GTT or else in VRAM, its
nodes, and the pages of its `struct ttm_tt`. -/
structure Mem where
  tt : Bool
  nodes : List Node
  dmaAddress : ℕ → ℕ
  readonly : Bool

/-- `gsgpu_gtt_mgr_has_gart_addr`. -/
def Mem.hasGartAddr (m : Mem) : Bool := m.nodes.head?.map Node.start != some boInvalidOffset

/-- The region has to be mapped to be copied. -/
def Mem.windowed (m : Mem) : Bool := m.tt && !m.hasGartAddr

/-- `bdev->man[mem_type].gpu_offset`. -/
def Mem.gpuOffset (g : Gmc) (m : Mem) : ℕ := if m.tt then g.gartStart else g.vramStart

/-- `gsgpu_mm_node_addr`. -/
def Mem.nodeAddr (g : Gmc) (m : Mem) (n : Node) : ℕ :=
  if !m.tt || m.hasGartAddr then Fill.mmNodeAddr (m.gpuOffset g) n else 0

/-- `gsgpu_find_mm_node`, with the nodes after the one found; `none` is a read past the nodes. -/
def findMmNode : List Node → ℕ → Option (Node × List Node × ℕ)
  | [], _ => none
  | n :: rest, offset =>
    if n.size * pageSize ≤ offset then findMmNode rest (offset - n.size * pageSize)
    else some (n, rest, offset)

/-! ### Jobs -/

/-- An address of an IB, in the pool that IBs come from. -/
abbrev IbAddr := { a : ℕ // a + ibPoolSize ≤ 2 ^ 64 }

/-- The outcomes of the calls made for one job: its IB, `gsgpu_gart_map` or `gsgpu_sync_resv`, and
`gsgpu_job_submit`. -/
structure Answer where
  alloc : Except Errno IbAddr
  prepare : Except Errno Unit
  submit : Except Errno Unit

/-- A job that was submitted: its IB of `allocated` bytes with the commands, and from dword `numDw`
on the entries for the window it maps. -/
structure Job where
  gpuAddr : ℕ
  ib : List ℕ
  numDw : ℕ
  entries : List ℕ
  allocated : ℕ
  vmNeedsFlush : Bool
  window : Option ℕ

/-- `while (num_dw & 0x7) num_dw++`. -/
def alignDw (numDw : ℕ) : ℕ := numDw + (8 - numDw % 8) % 8

/-- `gsgpu_job_alloc_with_ib`: the suballocator refuses what its pool can never hold. -/
def jobAllocWithIb (size : ℕ) (a : Answer) : Except Errno IbAddr :=
  if ibPoolSize < size then .error .einval else a.alloc

/-- A job with an IB of `size` bytes, through these calls. -/
def submitJob (size : ℕ) (a : Answer) (job : IbAddr → Job) : Except Errno Job :=
  match jobAllocWithIb size a with
  | .error e => .error e
  | .ok ib =>
    match a.prepare, a.submit with
    | .error e, _ => .error e
    | .ok (), .error e => .error e
    | .ok (), .ok () => .ok (job ib)

/-- `xdma_emit_copy_buffer`. -/
def xdmaEmitCopyBuffer (ib : List ℕ) (src dst byteCount : ℕ) : List ℕ :=
  let (width, height) := xdmaRows (byteCount / 8) 1
  ib ++ [xdmaCopy, u32 (height <<< 16 ||| width), lower32 src, upper32 src, lower32 dst, upper32 dst,
    xdmaPitch width, xdmaPitch width, 0]

/-- The entry that `mmu_set_pte_pde` writes. -/
def pteOf (addr flags : ℕ) : ℕ := (addr &&& 0xFFFFFFFFFFFFF000) ||| flags

/-- `gsgpu_gart_map` for the pages of a BO from `first` on. -/
def gartMap (m : Mem) (first numPages : ℕ) : List ℕ :=
  (List.range numPages).map fun i =>
    pteOf (m.dmaAddress (first + i)) (Vm.ttmTtPteFlags (some (.tt m.dmaAddress)) m.readonly)

/-- The bytes that `gsgpu_map_buffer` allocates: the commands, and the entries behind them. -/
def mapSize (numPages : ℕ) : ℕ := u32 (alignDw copyNumDw * 4 + u32 (numPages * 8))

/-- The job of `gsgpu_map_buffer`. -/
def mapJob (g : Gmc) (m : Mem) (numPages offset window : ℕ) (ib : IbAddr) : Job where
  gpuAddr := ib.val
  ib := xdmaRingPadIb (xdmaEmitCopyBuffer [] (u64 (alignDw copyNumDw * 4 + ib.val))
    (u64 (g.tableAddr + window * gttMaxTransferSize * 8)) (u32 (numPages * 8)))
  numDw := alignDw copyNumDw
  entries := gartMap m (offset / pageSize) numPages
  allocated := mapSize numPages
  vmNeedsFlush := false
  window := some window

/-- The address of a window, which `gsgpu_map_buffer` returns. -/
def windowAddr (g : Gmc) (window : ℕ) : ℕ :=
  u64 (g.gartStart + window * gttMaxTransferSize * gpuPageSize)

/-- `gsgpu_map_buffer`, with the address it returns. -/
def mapBuffer (g : Gmc) (m : Mem) (numPages offset window : ℕ) (a : Answer) :
    Except Errno (Job × ℕ) :=
  match submitJob (mapSize numPages) a (mapJob g m numPages offset window) with
  | .error e => .error e
  | .ok j => .ok (j, windowAddr g window)

/-- The loop of `gsgpu_copy_buffer`. -/
def copyLoop : ℕ → ℕ → ℕ → ℕ → List ℕ → List ℕ
  | 0, _, _, _, ib => ib
  | n + 1, src, dst, byteCount, ib =>
    let cur := min byteCount copyMaxBytes
    copyLoop n (u64 (src + cur)) (u64 (dst + cur)) (byteCount - cur)
      (xdmaEmitCopyBuffer ib src dst cur)

/-- `DIV_ROUND_UP(byte_count, max_bytes)`, in 32 bits; the constant is first so that evaluation stops
at a variable. -/
def copyLoops (byteCount : ℕ) : ℕ := u32 (copyMaxBytes + byteCount - 1) / copyMaxBytes

/-- The dwords for that many packets, padded. -/
def copyDw (numLoops : ℕ) : ℕ := alignDw (u32 (numLoops * copyNumDw))

/-- The job of `gsgpu_copy_buffer`. -/
def copyJob (src dst byteCount : ℕ) (ib : IbAddr) : Job where
  gpuAddr := ib.val
  ib := xdmaRingPadIb (copyLoop (copyLoops byteCount) src dst byteCount [])
  numDw := copyDw (copyLoops byteCount)
  entries := []
  allocated := u32 (copyDw (copyLoops byteCount) * 4)
  vmNeedsFlush := true
  window := none

/-- `gsgpu_copy_buffer`, not submitted directly. -/
def copyBuffer (src dst byteCount : ℕ) (a : Answer) : Except Errno Job :=
  submitJob (u32 (copyDw (copyLoops byteCount) * 4)) a (copyJob src dst byteCount)

/-! ### `gsgpu_ttm_copy_mem_to_mem` -/

/-- Where the loop stands in one region: `node_start`, `node_size` and `page_offset`, and the nodes
after this one. -/
structure Side where
  nodeStart : ℕ
  nodeSize : ℕ
  pageOffset : ℕ
  rest : List Node

/-- Before the loop. -/
def Side.init (g : Gmc) (m : Mem) (offset : ℕ) : Option Side :=
  (findMmNode m.nodes offset).map fun (n, rest, offset) =>
    let nodeStart := u64 (m.nodeAddr g n + offset)
    ⟨nodeStart, n.size * pageSize - offset, nodeStart &&& (pageSize - 1), rest⟩

/-- After `cur` bytes; `none` is a read past the nodes. -/
def Side.advance (g : Gmc) (m : Mem) (cur : ℕ) (s : Side) : Option Side :=
  if s.nodeSize - cur = 0 then
    match s.rest with
    | [] => none
    | n :: rest => some ⟨m.nodeAddr g n, n.size * pageSize, s.pageOffset, rest⟩
  else
    let nodeStart := u64 (s.nodeStart + cur)
    some ⟨nodeStart, s.nodeSize - cur, nodeStart &&& (pageSize - 1), s.rest⟩

/-- The address to copy from or to, with the job that maps it into a window. -/
def Side.map (g : Gmc) (m : Mem) (cur window : ℕ) (a : Answer) (s : Side) :
    Except Errno (Option Job × ℕ) :=
  if m.windowed then
    match mapBuffer g m ((cur + s.pageOffset + pageSize - 1) / pageSize) s.nodeStart window a with
    | .error e => .error e
    | .ok (j, addr) => .ok (some j, u64 (addr + s.pageOffset))
  else .ok (none, s.nodeStart)

/-- The answers to one turn of the loop. -/
structure Turn where
  src : Answer
  dst : Answer
  copy : Answer

/-- The jobs that were submitted, and the return value. -/
structure Outcome where
  jobs : List Job
  ret : Except Errno Unit

end Gsgpu.Move
