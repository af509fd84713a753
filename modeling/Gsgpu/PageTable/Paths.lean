import Gsgpu.Lib.Words
import Gsgpu.PageTable.Walk

/-! The two ways `gsgpu_vm_bo_update_mapping` writes page table entries: by the CPU
(`gsgpu_vm_cpu_set_ptes`, `mmu_set_pte_pde`), and by an IB of XDMA packets
(`gsgpu_vm_do_set_ptes`, `gsgpu_vm_do_copy_ptes`) that the hardware then executes. -/
namespace Gsgpu.PageTable
open Gsgpu.Vm (u64)
open Memory (lower32 upper32)

/-- A 32-bit value. -/
def u32 (n : ℕ) : ℕ := n % 2 ^ 32

/-! ### The CPU -/

/-- `mmu_set_pte_pde`. -/
def mmuSetPtePde (m : Memory) (cpuPtAddr gpuPageIdx addr flags : ℕ) : Memory :=
  m.write64 (cpuPtAddr + gpuPageIdx * 8) ((addr &&& 0xFFFFFFFFFFFFF000) ||| flags)

/-- The loop of `gsgpu_vm_cpu_set_ptes`. -/
def cpuSetLoop (pages : Option (ℕ → ℕ)) (pe incr flags : ℕ) : ℕ → ℕ → ℕ → Memory → Memory
  | 0, _, _, m => m
  | n + 1, i, addr, m => cpuSetLoop pages pe incr flags n (i + 1) (u64 (addr + incr))
      (mmuSetPtePde m pe i (entryAddr pages addr) flags)

/-- What the kernel answers on the CPU path: `gsgpu_vm_wait_pd`, and which BOs can be mapped. -/
structure CpuEnv where
  wait : Option Errno
  kmap : Copy → Table → Bool

/-- `gsgpu_vm_cpu_set_ptes`: a BO that cannot be mapped is left as it is, without an error. -/
def vmCpuSetPtes (L : Layout) (env : CpuEnv) (pages : Option (ℕ → ℕ)) (c : Copy) (t : Table)
    (pe addr count incr flags : ℕ) (m : Memory) : Memory :=
  if env.kmap c t then cpuSetLoop pages (L.base c t + pe) incr flags count 0 addr m else m

def cpuParams (L : Layout) (env : CpuEnv) (pages : Option (ℕ → ℕ)) : Params Memory where
  src := if pages.isSome then 2 ^ 64 - 1 else 0
  func := vmCpuSetPtes L env pages
  full := fun _ => false
  submit := id

/-- `gsgpu_vm_bo_update_mapping` with `use_cpu_for_update`. -/
def vmBoUpdateMappingCpu (L : Layout) (env : CpuEnv) (pages : Option (ℕ → ℕ))
    (start last flags addr : ℕ) : Prog Fault Errno (Tree Memory) Unit :=
  match env.wait with
  | some e => Prog.fail e
  | none => vmUpdatePtes (cpuParams L env pages) start (u64 (last + 1)) addr flags

/-! ### XDMA packets -/

/-- `GSPKT`. -/
def gspkt (op n : ℕ) : ℕ := (op &&& 0xFF) ||| (n &&& 0xFFFF) <<< 16

/-- The header of a `GSPKT_XDMA_COPY` packet that fills with a value of RGBA16 pixels, 16K more
for each pixel. -/
def xdmaMemset : ℕ := gspkt 0xc0 8 ||| 0x7 <<< 24 ||| 1 <<< 8 ||| 3 <<< 28

/-- The header of a `GSPKT_XDMA_COPY` packet that copies RGBA16 pixels. -/
def xdmaCopy : ℕ := gspkt 0xc0 8 ||| 0x1 <<< 24 ||| 1 <<< 8

/-- `GSPKT(GSPKT_NOP, 0)`. -/
def gspktNop : ℕ := gspkt 0x80 0

/-- Width and height of a packet: at most `2^16` pixels in a line. -/
def xdmaRows (width height : ℕ) : ℕ × ℕ :=
  if 0x10000 ≤ width then xdmaRows (width / 2) (height * 2) else (width, height)
termination_by width

/-- `(width ? width : 1) * GSGPU_VM_PDE_PTE_BYTES`. -/
def xdmaPitch (width : ℕ) : ℕ := (if width = 0 then 1 else width) * 8

/-- `xdma_vm_copy_pte`. -/
def xdmaVmCopyPte (ib : List ℕ) (pe src count : ℕ) : List ℕ :=
  let (width, height) := xdmaRows count 1
  ib ++ [xdmaCopy, u32 (height <<< 16 ||| width), lower32 src, upper32 src, lower32 pe,
    upper32 pe, xdmaPitch width, xdmaPitch width, 0]

/-- `xdma_vm_set_pte_pde`; the hardware's increment is 16K whatever `incr` is. -/
def xdmaVmSetPtePde (ib : List ℕ) (pe addr count flags : ℕ) : List ℕ :=
  let (width, height) := xdmaRows count 1
  ib ++ [xdmaMemset, u32 (height <<< 16 ||| width), lower32 (addr ||| flags),
    upper32 (addr ||| flags), lower32 pe, upper32 pe, 0, xdmaPitch width, 0]

/-- `gsgpu_vm_do_set_ptes`. -/
def vmDoSetPtes (L : Layout) (c : Copy) (t : Table) (pe addr count _incr flags : ℕ)
    (ib : List ℕ) : List ℕ :=
  xdmaVmSetPtePde ib (u64 (pe + L.base c t)) addr count flags

/-- `gsgpu_vm_do_copy_ptes`. -/
def vmDoCopyPtes (L : Layout) (src : ℕ) (c : Copy) (t : Table) (pe addr count _incr _flags : ℕ)
    (ib : List ℕ) : List ℕ :=
  xdmaVmCopyPte ib (u64 (pe + L.base c t)) (u64 (src + addr / gpuPageSize * pdePteSize)) count

/-- `xdma_ring_pad_ib`. -/
def xdmaRingPadIb (ib : List ℕ) : List ℕ :=
  ib ++ List.replicate ((8 - ib.length % 8) % 8) gspktNop

/-! ### The hardware -/

/-- One row of a copy. -/
def copyRow (src dst : ℕ) : ℕ → ℕ → Memory → Memory
  | 0, _, m => m
  | n + 1, i, m => copyRow src dst n (i + 1) (m.write64 (dst + i * 8) (m.read64 (src + i * 8)))

/-- A copy row by row. -/
def copyRows (src dst srcPitch dstPitch width : ℕ) : ℕ → ℕ → Memory → Memory
  | 0, _, m => m
  | h + 1, r, m => copyRows src dst srcPitch dstPitch width h (r + 1)
      (copyRow (src + r * srcPitch) (dst + r * dstPitch) width 0 m)

/-- What a packet after its header does: the arguments are eight words. -/
def execMemset (args : List ℕ) (m : Memory) : Memory :=
  let size := args.getD 0 0
  let value := args.getD 1 0 + args.getD 2 0 * 2 ^ 32
  let dst := args.getD 3 0 + args.getD 4 0 * 2 ^ 32
  Memory.writeWords dst (fun i => u64 (value + i * gpuPageSize)) (size % 2 ^ 16 * (size / 2 ^ 16))
    0 m

def execCopy (args : List ℕ) (m : Memory) : Memory :=
  let size := args.getD 0 0
  let src := args.getD 1 0 + args.getD 2 0 * 2 ^ 32
  let dst := args.getD 3 0 + args.getD 4 0 * 2 ^ 32
  copyRows src dst (args.getD 5 0) (args.getD 6 0) (size % 2 ^ 16) (size / 2 ^ 16) 0 m

/-- The packets of an IB in order; one that is neither a fill nor a copy is a NOP. -/
def xdmaExec : List ℕ → Memory → Memory
  | [], m => m
  | hdr :: rest, m =>
    if hdr = xdmaMemset then xdmaExec (rest.drop 8) (execMemset rest m)
    else if hdr = xdmaCopy then xdmaExec (rest.drop 8) (execCopy rest m)
    else xdmaExec rest m
termination_by ib => ib.length
decreasing_by all_goals simp only [List.length_drop, List.length_cons]; omega

/-! ### The XDMA path -/

/-- What the kernel answers on the XDMA path: where the IB is, if there is room for it, and the
outcomes of the synchronisation and of the submission. -/
structure XdmaEnv where
  alloc : Except Errno ℕ
  sync : Option Errno
  submit : Option Errno

/-- `nptes` of `gsgpu_vm_bo_update_mapping`. -/
def ibNptes (start last : ℕ) : ℕ := u32 (last + 2 ^ 64 - start + 1)

/-- The dwords of an IB for commands: two for every block and shadow, and the padding. -/
def ibCommands (shadow : Bool) (nptes : ℕ) : ℕ :=
  let ncmds := if shadow then (nptes / 2 ^ 11 + 2) * 2 else nptes / 2 ^ 11 + 2
  64 + ncmds * 9

/-- `ndw`: with pages the IB also holds their entries. -/
def ibNdw (shadow : Bool) (pages : Option (ℕ → ℕ)) (nptes : ℕ) : ℕ :=
  u32 (ibCommands shadow nptes + if pages.isSome then nptes * 2 else 0)

/-- The pool `ring_tmp_bo` that IBs come from. -/
def ibPoolSize : ℕ := 16 * 64 * 1024

/-- The entry the driver puts at index `i` of the array at the end of the IB. -/
def ibPte (dma : ℕ → ℕ) (addr flags i : ℕ) : ℕ :=
  vmMapGart dma (u64 (addr + u32 (i * gpuPageSize))) ||| flags

/-- The dwords of the IB at `gpuAddr`: the array of entries, and over it the commands. -/
def loadIb (gpuAddr ndw array : ℕ) (pte : ℕ → ℕ) (ib : List ℕ) (m : Memory) : Memory := fun a =>
  let d := (a - gpuAddr) / 4
  if a = gpuAddr + d * 4 ∧ d < ndw then
    if d < ib.length then ib.getD d 0
    else if array ≤ d then
      if (d - array) % 2 = 0 then lower32 (pte ((d - array) / 2)) else upper32 (pte ((d - array) / 2))
    else m a
  else m a

/-- The parameters of an XDMA update, with the array of entries at `src`. -/
def xdmaParams (L : Layout) (pages : Option (ℕ → ℕ)) (src : ℕ) : Params (List ℕ) where
  src := if pages.isSome then src else 0
  func := if pages.isSome then vmDoCopyPtes L src else vmDoSetPtes L
  full := fun _ => false
  submit := id

/-- `gsgpu_vm_bo_update_mapping` without `use_cpu_for_update`, with the execution of its IB. An
error after the allocation frees the IB, but the tree has changed. -/
def vmBoUpdateMappingXdma (L : Layout) (env : XdmaEnv) (pages : Option (ℕ → ℕ))
    (start last flags addr : ℕ) : Prog Fault Errno (Tree Memory) Unit := fun T =>
  let nptes := ibNptes start last
  let ndw := ibNdw T.shadow pages nptes
  let array := if pages.isSome then ndw - nptes * 2 else ndw
  if ibPoolSize < u32 (ndw * 4) then .ok (.error .einval, T)
  else
    match env.alloc with
    | .error e => .ok (.error e, T)
    | .ok gpuAddr =>
      match env.sync with
      | some e => .ok (.error e, T)
      | none =>
        let params := xdmaParams L pages (u64 (gpuAddr + array * 4))
        let dst := if pages.isSome then 0 else addr
        match vmUpdatePtes params start (u64 (last + 1)) dst flags { T with mem := [] } with
        | .error f => .error f
        | .ok (.error e, T') => .ok (.error e, { T' with mem := T.mem })
        | .ok (.ok (), T') =>
          match env.submit with
          | some e => .ok (.error e, { T' with mem := T.mem })
          | none =>
            let ib := xdmaRingPadIb T'.mem
            let pte := fun i => match pages with
              | some dma => ibPte dma addr flags i
              | none => 0
            .ok (.ok (), { T' with mem := xdmaExec ib (loadIb gpuAddr ndw array pte ib T.mem) })

end Gsgpu.PageTable
