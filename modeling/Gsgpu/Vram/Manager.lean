import Gsgpu.Basic
import Gsgpu.Lib.Run
import Mathlib.Algebra.BigOperators.Group.Finset.Basic
import Mathlib.Order.Interval.Finset.Nat

/-! The VRAM manager: regions made of nodes of the range allocator `drm_mm`, and the counters of
the bytes in use. -/
namespace Gsgpu.Vram

/-- `struct drm_mm_node`, in pages. -/
structure Node where
  start : ℕ
  size : ℕ
deriving DecidableEq

/-- The pages of a node. -/
def Node.pages (n : Node) : Finset ℕ := Finset.Ico n.start (n.start + n.size)

/-- `-ENOSPC`, from `drm_mm`. -/
def enospc : Errno := .other 28

/-- What the manager is set up with: its size in pages, the sizes of `struct gsgpu_gmc` in bytes
and `gsgpu_vram_page_split`, none for -1. `gsgpu_mc_init` has 256 MiB, and
`gsgpu_device_check_arguments` corrects the split. -/
structure Config where
  size : ℕ
  visibleVramSize : ℕ
  realVramSize : ℕ
  pageSplit : Option ℕ
  size_eq : size = realVramSize / pageSize
  realVramSize_le : realVramSize ≤ 256 * 1024 * 1024
  pageSplit_le : ∀ p, pageSplit = some p → 16 ≤ p ∧ p < 2 ^ 31

/-- What the manager looks at in `struct ttm_place`. -/
structure Place where
  fpfn : ℕ
  lpfn : ℕ
  contiguous : Bool
  topdown : Bool
deriving DecidableEq

/-- The arguments of `drm_mm_insert_node_in_range`. -/
structure Request where
  size : ℕ
  alignment : ℕ
  fpfn : ℕ
  lpfn : ℕ
  high : Bool

/-- What `drm_mm_insert_node_in_range` finds among the inserted nodes: nothing, or a hole of the
requested size in the requested range and in the allocator's. -/
structure DrmMm (size : ℕ) where
  find : Finset Node → Request → Except Errno ℕ
  sound : ∀ nodes r start, find nodes r = .ok start →
    r.fpfn ≤ start ∧ start + r.size ≤ r.lpfn ∧ start + r.size ≤ size ∧
      ∀ n ∈ nodes, Disjoint (Node.pages ⟨start, r.size⟩) n.pages

/-- `struct ttm_mem_reg`. Remembered here only: the range of the placement. -/
structure MemReg where
  numPages : ℕ
  pageAlignment : ℕ
  start : ℕ
  mmNode : Option (List Node)
  fpfn : ℕ
  lpfn : ℕ

/-- `struct gsgpu_vram_mgr` with the regions; `live` are those with nodes. -/
structure State where
  inserted : Finset Node
  usage : BitVec 64
  visUsage : BitVec 64
  mem : ℕ → MemReg
  live : Finset ℕ

def State.setMem (s : State) (m : ℕ) (x : MemReg) : State :=
  { s with mem := Function.update s.mem m x }

variable (c : Config)

/-- `gsgpu_vram_mgr_vis_size`. -/
def Node.visSize (n : Node) : ℕ :=
  let start := n.start * pageSize
  let last := (n.size + n.start) * pageSize
  if c.visibleVramSize ≤ start then 0
  else (if c.visibleVramSize < last then c.visibleVramSize else last) - start

/-- `DIV_ROUND_UP`. -/
def divRoundUp (n d : ℕ) : ℕ := (n + d - 1) / d

/-- The locals of `gsgpu_vram_mgr_new` with the nodes inserted so far and `mem->start`. -/
structure Loop where
  inserted : Finset Node
  nodes : List Node
  pagesLeft : ℕ
  usage : ℕ
  visUsage : ℕ
  start : ℕ

/-- A node is inserted, and the locals follow. -/
def Loop.add (numPages : ℕ) (l : Loop) (n : Node) : Loop where
  inserted := insert n l.inserted
  nodes := l.nodes ++ [n]
  pagesLeft := l.pagesLeft - n.size
  usage := l.usage + n.size * pageSize
  visUsage := l.visUsage + n.visSize c
  start := max l.start (if numPages < n.start + n.size then n.start + n.size - numPages else 0)

/-- The loop of `gsgpu_vram_mgr_new` for so many more nodes. -/
def newLoop (drm : DrmMm c.size) (m : MemReg) (place : Place) (lpfn pagesPerNode : ℕ) :
    ℕ → Loop → Except (Errno × Loop) Loop
  | 0, l => .ok l
  | k + 1, l =>
    let pages := min l.pagesLeft pagesPerNode
    let alignment := if pages = pagesPerNode then pagesPerNode % 2 ^ 32 else m.pageAlignment
    match drm.find l.inserted ⟨pages, alignment, place.fpfn, lpfn, place.topdown⟩ with
    | .error r => .error (r, l)
    | .ok start => newLoop drm m place lpfn pagesPerNode k (l.add c m.numPages ⟨start, pages⟩)

/-- The pages of each node but the last. -/
def pagesPerNode (m : MemReg) (place : Place) : ℕ :=
  match place.contiguous, c.pageSplit with
  | false, some split => max split m.pageAlignment
  | _, _ => 2 ^ 64 - 1

def numNodes (m : MemReg) (place : Place) : ℕ :=
  match place.contiguous, c.pageSplit with
  | false, some _ => divRoundUp m.numPages (pagesPerNode c m place)
  | _, _ => 1

/-- The end of the range: `man->size` when the placement has none. -/
def placeEnd (place : Place) : ℕ := if place.lpfn = 0 then c.size else place.lpfn

/-- `gsgpu_vram_mgr_new`, with its return value. -/
def State.mgrNew (s : State) (m : ℕ) (place : Place) (kvmalloc : Bool) (drm : DrmMm c.size) :
    State × Except Errno Unit :=
  let x := s.mem m
  let lpfn := placeEnd c place
  if !kvmalloc then (s, .error .enomem)
  else
    match newLoop c drm x place lpfn (pagesPerNode c x place) (numNodes c x place)
      ⟨s.inserted, [], x.numPages, 0, 0, 0⟩ with
    | .ok l =>
      ({ s.setMem m { x with
            start := l.start
            mmNode := some l.nodes
            fpfn := place.fpfn
            lpfn := lpfn } with
          inserted := l.inserted
          usage := s.usage + BitVec.ofNat 64 l.usage
          visUsage := s.visUsage + BitVec.ofNat 64 l.visUsage
          live := insert m s.live }, .ok ())
    | .error (r, l) =>
      ({ s.setMem m { x with start := l.start } with
          inserted := l.nodes.reverse.foldl Finset.erase l.inserted },
        if r = enospc then .ok () else .error r)

/-- The loop of `gsgpu_vram_mgr_del`, which counts the pages down; none when it would read past
the last node. -/
def delLoop : List Node → BitVec 32 → Loop → Option Loop
  | [], pages, l => if pages = 0 then some l else none
  | n :: ns, pages, l =>
    if pages = 0 then some l
    else delLoop ns (pages - BitVec.ofNat 32 n.size) { l with
      inserted := l.inserted.erase n
      usage := l.usage + n.size * pageSize
      visUsage := l.visUsage + n.visSize c }

/-- `gsgpu_vram_mgr_del`. -/
def State.mgrDel (s : State) (m : ℕ) : Option State :=
  let x := s.mem m
  match x.mmNode with
  | none => some s
  | some nodes => do
    let l ← delLoop c nodes (BitVec.ofNat 32 x.numPages) ⟨s.inserted, [], 0, 0, 0, 0⟩
    return { s.setMem m { x with mmNode := none } with
      inserted := l.inserted
      usage := s.usage - BitVec.ofNat 64 l.usage
      visUsage := s.visUsage - BitVec.ofNat 64 l.visUsage
      live := s.live.erase m }

inductive Event
  | new (m numPages pageAlignment : ℕ) (place : Place) (kvmalloc : Bool) (drm : DrmMm c.size)
  | del (m : ℕ)

/-- TTM asks for nodes for a region without any; its pages are those of a size in bytes. -/
def State.step (s : State) : Event c → Option State
  | .new m numPages pageAlignment place kvmalloc drm =>
    if (s.mem m).mmNode = none ∧ 0 < numPages ∧ numPages * pageSize < 2 ^ 64 ∧
        pageAlignment < 2 ^ 32 then
      some ((s.setMem m { s.mem m with
        numPages := numPages
        pageAlignment := pageAlignment }).mgrNew c m place kvmalloc drm).1
    else none
  | .del m => s.mgrDel c m

def State.initial : State where
  inserted := ∅
  usage := 0
  visUsage := 0
  mem := fun _ => ⟨0, 0, 0, none, 0, 0⟩
  live := ∅

def State.Reachable (s : State) : Prop :=
  Transition.Reach (fun s => s = State.initial) (fun s e s' => s.step c e = some s')
    (fun _ _ => True) s

end Gsgpu.Vram
