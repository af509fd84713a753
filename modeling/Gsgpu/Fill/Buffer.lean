import Gsgpu.PageTable.Paths
import Gsgpu.Vm.Split

/-! Filling a buffer: the IB of XDMA packets that `gsgpu_fill_buffer` builds, and what the packets
do to memory, byte by byte. -/
namespace Gsgpu.Fill
open Gsgpu.Vm (Node u64)
open Gsgpu.PageTable (u32 gspkt gspktNop xdmaRows xdmaPitch xdmaRingPadIb ibPoolSize)
open Memory (lower32 upper32)

/-! ### The packets -/

/-- The header of a `GSPKT_XDMA_COPY` packet that fills RGBA8 pixels with a value. -/
def xdmaFill : ℕ := gspkt 0xc0 8 ||| 0x7 <<< 24 ||| 0 <<< 8

/-- `xdma_emit_fill_buffer`. The pitch is of pixels of `GSGPU_VM_PDE_PTE_BYTES`, 8, bytes. -/
def xdmaEmitFillBuffer (ib : List ℕ) (srcData dst byteCount : ℕ) : List ℕ :=
  let (width, height) := xdmaRows (byteCount / 4) 1
  ib ++ [xdmaFill, u32 (height <<< 16 ||| width), lower32 srcData, 0, lower32 dst, upper32 dst, 0,
    xdmaPitch width, 0]

/-- `fill_max_bytes`. -/
def fillMaxBytes : ℕ := 0x3fffc0

/-- `fill_num_dw`. -/
def fillNumDw : ℕ := 9

/-! ### `gsgpu_fill_buffer` -/

/-- What is read of the BO; `gpuOffset` is of the memory type it is in. -/
structure Bo where
  numPages : ℕ
  nodes : List Node
  tt : Bool
  gpuOffset : ℕ

/-- What the function is answered: whether the ring is on, and the outcomes of its calls. -/
structure Env where
  enabled : Bool
  allocGart : Except Errno Unit
  alloc : Except Errno Unit
  sync : Except Errno Unit
  submit : Except Errno Unit

/-- `gsgpu_mm_node_addr`. A BO in GTT has an address here: `gsgpu_ttm_alloc_gart` has seen to it. -/
def mmNodeAddr (gpuOffset : ℕ) (n : Node) : ℕ := u64 (n.start * pageSize + gpuOffset)

/-- `uint32_t byte_count = mm_node->size << PAGE_SHIFT`. -/
def byteCount (n : Node) : ℕ := u32 (n.size * pageSize)

/-- `DIV_ROUND_UP(byte_count, max_bytes)`, in 32 bits. -/
def fillLoops (byteCount : ℕ) : ℕ := u32 (byteCount + fillMaxBytes - 1) / fillMaxBytes

/-- The first loop over the nodes, which counts the packets; `none` is a read past the nodes. -/
def countLoops : List Node → ℕ → ℕ → Option ℕ
  | [], numPages, loops => if numPages = 0 then some loops else none
  | n :: rest, numPages, loops =>
    if numPages = 0 then some loops
    else countLoops rest (u64 (numPages + (2 ^ 64 - n.size))) (u32 (loops + fillLoops (byteCount n)))

/-- The packets of one node. -/
def fillNode (srcData : ℕ) (ib : List ℕ) (dst byteCount : ℕ) : List ℕ :=
  if byteCount = 0 then ib
  else
    let cur := min byteCount fillMaxBytes
    fillNode srcData (xdmaEmitFillBuffer ib srcData dst cur) (u64 (dst + cur)) (byteCount - cur)
termination_by byteCount
decreasing_by
  have : fillMaxBytes = 4194240 := rfl
  omega

/-- The second loop over the nodes, which emits the packets. -/
def fillNodes (srcData gpuOffset : ℕ) : List Node → ℕ → List ℕ → Option (List ℕ)
  | [], numPages, ib => if numPages = 0 then some ib else none
  | n :: rest, numPages, ib =>
    if numPages = 0 then some ib
    else fillNodes srcData gpuOffset rest (u64 (numPages + (2 ^ 64 - n.size)))
      (fillNode srcData ib (mmNodeAddr gpuOffset n) (byteCount n))

/-- The IB that was submitted, and the bytes that were allocated for it. -/
structure Filled where
  ib : List ℕ
  allocated : ℕ

/-- `gsgpu_fill_buffer`. `none` is a read past the nodes. -/
def fillBuffer (env : Env) (bo : Bo) (srcData : ℕ) : Option (Except Errno Filled) :=
  if !env.enabled then some (.error .einval)
  else
    match if bo.tt then env.allocGart else .ok () with
    | .error e => some (.error e)
    | .ok () =>
      match countLoops bo.nodes bo.numPages 0 with
      | none => none
      | some numLoops =>
        let numDw := u32 (u32 (numLoops * fillNumDw) + 64)
        let size := u32 (numDw * 4)
        -- the suballocator refuses what its pool can never hold
        if ibPoolSize < size then some (.error .einval)
        else
          match env.alloc, env.sync with
          | .error e, _ => some (.error e)
          | .ok (), .error e => some (.error e)
          | .ok (), .ok () =>
            match fillNodes srcData bo.gpuOffset bo.nodes bo.numPages [] with
            | none => none
            | some ib =>
              match env.submit with
              | .error e => some (.error e)
              | .ok () => some (.ok ⟨xdmaRingPadIb ib, size⟩)

/-! ### The hardware -/

/-- Byte `i` of a value. -/
def byteOf (value i : ℕ) : ℕ := value / 2 ^ (8 * i) % 2 ^ 8

/-- One row of `width` pixels from `dst` on. -/
def fillRow (value dst width : ℕ) (m : ℕ → ℕ) : ℕ → ℕ := fun a =>
  if dst ≤ a ∧ a < dst + width * 4 then byteOf value ((a - dst) % 4) else m a

/-- The rows from `r` on, `pitch` bytes apart. -/
def fillRows (value dst width pitch : ℕ) : ℕ → ℕ → (ℕ → ℕ) → ℕ → ℕ
  | 0, _, m => m
  | h + 1, r, m => fillRows value dst width pitch h (r + 1) (fillRow value (dst + r * pitch) width m)

/-- What a packet after its header does: height and width, the value, the address, and as the
eighth dword of the packet the pitch. -/
def execFill (args : List ℕ) (m : ℕ → ℕ) : ℕ → ℕ :=
  let size := args.getD 0 0
  let dst := args.getD 3 0 + args.getD 4 0 * 2 ^ 32
  fillRows (args.getD 1 0) dst (size % 2 ^ 16) (args.getD 6 0) (size / 2 ^ 16) 0 m

/-- The packets of an IB in order; one that is not a fill is a NOP. -/
def fillExec : List ℕ → (ℕ → ℕ) → ℕ → ℕ
  | [], m => m
  | hdr :: rest, m =>
    if hdr = xdmaFill then fillExec (rest.drop 8) (execFill rest m) else fillExec rest m
termination_by ib => ib.length
decreasing_by all_goals simp only [List.length_drop, List.length_cons]; omega

/-- Inside the bytes of a node. -/
def InNode (gpuOffset : ℕ) (n : Node) (a : ℕ) : Prop :=
  mmNodeAddr gpuOffset n ≤ a ∧ a < mmNodeAddr gpuOffset n + n.size * pageSize

/-- Whatever memory holds, the IB writes `srcData` to every byte of every node of the BO and to no
byte outside of them. -/
structure FillsExactly (bo : Bo) (srcData : ℕ) (ib : List ℕ) : Prop where
  inside : ∀ (m : ℕ → ℕ) (n : Node), n ∈ bo.nodes → ∀ i, i < n.size * pageSize →
    fillExec ib m (mmNodeAddr bo.gpuOffset n + i) = byteOf srcData (i % 4)
  outside : ∀ (m : ℕ → ℕ) a, (∀ n ∈ bo.nodes, ¬ InNode bo.gpuOffset n a) → fillExec ib m a = m a

/-- What the memory manager promises of a BO's nodes: they make up the BO, do not overlap, and lie
inside the address space. -/
structure Placed (bo : Bo) : Prop where
  numPages : bo.numPages = Vm.nodePages bo.nodes
  numPages_lt : bo.numPages < 2 ^ 64
  disjoint : bo.nodes.Pairwise fun n n' => n.start + n.size ≤ n'.start ∨ n'.start + n'.size ≤ n.start
  bound : ∀ n ∈ bo.nodes, (n.start + n.size) * pageSize + bo.gpuOffset ≤ 2 ^ 64

end Gsgpu.Fill
