import Gsgpu.Vram.Manager
import Mathlib.Algebra.GroupWithZero.Nat

/-! Buffer objects and their placements: where a BO is, where the driver asks TTM to put it when it
is pinned, unpinned, evicted and brought back, and what TTM may make of it. -/
namespace Gsgpu.Vram

inductive MemType
  | system
  | tt
  | vram
deriving DecidableEq

/-- A set of `GSGPU_GEM_DOMAIN_*` flags; the domain of system memory is the CPU's. -/
abbrev Domain := Finset MemType

/-- The manager with the GART. The visible VRAM is a PCI BAR or a number of MiB, in either case
whole pages. -/
structure Device extends Config where
  gartSize : ℕ
  visible_dvd : pageSize ∣ visibleVramSize

/-- `struct ttm_place`, without the caching flags. -/
structure BoPlace where
  memType : MemType
  fpfn : ℕ
  lpfn : ℕ
  noEvict : Bool
  contiguous : Bool
  topdown : Bool
deriving DecidableEq

/-- `bo->mem`; the nodes are those of VRAM, and `noEvict` is in `mem.placement`. -/
structure Mem where
  memType : MemType
  mmNode : Option (List Node)
  start : ℕ
  noEvict : Bool
deriving DecidableEq

/-- The fields of `struct gsgpu_bo` that decide where it is; `usermm` tells that it is a userptr,
`primeShared` that its `prime_shared_count` is not zero. -/
structure Bo where
  numPages : ℕ
  compressed : Bool
  cpuAccessRequired : Bool
  noCpuAccess : Bool
  contiguous : Bool
  shadow : Bool
  usermm : Bool
  primeShared : Bool
  preferredDomains : Domain
  pinCount : BitVec 32
  nodeOffset : ℕ
  placements : List BoPlace
  mem : Mem

variable (d : Device)

/-- `gsgpu_bo_size`. -/
def Bo.size (b : Bo) : ℕ := b.numPages * pageSize

/-- The place in VRAM that the flags of a BO ask for. -/
def Bo.vramPlace (b : Bo) : BoPlace where
  memType := .vram
  fpfn := 0
  lpfn := if b.cpuAccessRequired then d.visibleVramSize / pageSize % 2 ^ 32 else 0
  noEvict := b.compressed
  contiguous := b.contiguous
  topdown := !b.cpuAccessRequired

def Bo.ttPlace (b : Bo) : BoPlace where
  memType := .tt
  fpfn := 0
  lpfn := if b.shadow then d.gartSize / pageSize % 2 ^ 32 else 0
  noEvict := false
  contiguous := false
  topdown := false

def systemPlace : BoPlace := ⟨.system, 0, 0, false, false, false⟩

/-- `gsgpu_bo_placement_from_domain`. -/
def Bo.placementFromDomain (b : Bo) (domain : Domain) : List BoPlace :=
  let places := (if .vram ∈ domain then [b.vramPlace d] else []) ++
    (if .tt ∈ domain then [b.ttPlace d] else []) ++
    if .system ∈ domain then [systemPlace] else []
  if places.isEmpty then [systemPlace] else places

theorem mem_placementFromDomain {b : Bo} {domain : Domain} {p : BoPlace}
    (h : p ∈ b.placementFromDomain d domain) :
    .vram ∈ domain ∧ p = b.vramPlace d ∨ .tt ∈ domain ∧ p = b.ttPlace d ∨ p = systemPlace := by
  have hmem : ∀ {c : Prop} [Decidable c] {x : BoPlace},
      p ∈ (if c then [x] else []) → c ∧ p = x := by
    intro c _ x hx
    split at hx
    case isTrue hc => exact ⟨hc, List.mem_singleton.mp hx⟩
    case isFalse => cases hx
  simp only [Bo.placementFromDomain] at h
  generalize hplaces : (if .vram ∈ domain then [b.vramPlace d] else []) ++
    (if .tt ∈ domain then [b.ttPlace d] else []) ++
    (if .system ∈ domain then [systemPlace] else []) = places at h
  split at h
  case isTrue => exact .inr (.inr (List.mem_singleton.mp h))
  case isFalse =>
    rw [← hplaces, List.mem_append, List.mem_append] at h
    rcases h with (h | h) | h
    · exact .inl (hmem h)
    · exact .inr (.inl (hmem h))
    · exact .inr (.inr (hmem h).2)

/-- A placement is cut down to a range, and the BO is to stay there: the loops of
`gsgpu_bo_pin_restricted` and `gsgpu_zip_gem_bo_validate`. -/
def BoPlace.restrict (fpfn lpfn : ℕ) (p : BoPlace) : BoPlace :=
  { p with
    fpfn := if p.fpfn < fpfn then fpfn else p.fpfn
    lpfn := if p.lpfn = 0 ∨ lpfn ≠ 0 ∧ lpfn < p.lpfn then lpfn else p.lpfn
    noEvict := true }

/-- The BO may go: the loops of `gsgpu_bo_unpin` and `gsgpu_zip_gem_bo_evict`. -/
def BoPlace.release (p : BoPlace) : BoPlace := { p with lpfn := 0, noEvict := false }

/-- The flags and placements that pin a BO to a range, in the CPU's part of VRAM if it is to be
accessed by the CPU. -/
def Bo.restrict (b : Bo) (domain : Domain) (fpfn lpfn : ℕ) : Bo :=
  let b := { b with
    contiguous := true
    cpuAccessRequired := !b.noCpuAccess || b.cpuAccessRequired }
  { b with
    placements := (b.placementFromDomain d domain).map
      (BoPlace.restrict (fpfn % 2 ^ 32) (lpfn % 2 ^ 32)) }

def Bo.release (b : Bo) : Bo := { b with placements := b.placements.map BoPlace.release }

/-- `gsgpu_bo_move`, which TTM calls for every move to or from VRAM. -/
def Bo.moveRefused (b : Bo) : Bool := b.pinCount != 0

/-- What `ttm_bo_validate` comes to: an error, also one that leaves a BO of GTT unbound in system
memory, a BO that already is where a placement has it, or a new region for it. -/
inductive Outcome
  | fail
  | unbound
  | stay (p : BoPlace)
  | move (p : BoPlace) (nodes : List Node) (start : ℕ)

/-- Nodes of VRAM that `gsgpu_vram_mgr_new` makes for a placement. -/
def NodesFor (numPages : ℕ) (contiguous : Bool) (nodes : List Node) (start : ℕ) : Prop :=
  (nodes.map Node.size).sum = numPages ∧ (∀ n ∈ nodes, n.start + n.size ≤ d.size) ∧
    (contiguous = true → ∃ n, nodes = [n] ∧ start = n.start)

instance (numPages : ℕ) (nodes : List Node) (start : ℕ) (contiguous : Bool) :
    Decidable (NodesFor d numPages contiguous nodes start) :=
  decidable_of_iff ((nodes.map Node.size).sum = numPages ∧
    (∀ n ∈ nodes, n.start + n.size ≤ d.size) ∧
    (contiguous = true → nodes.head?.map Node.start = some start ∧ nodes.length = 1)) (by
      unfold NodesFor
      constructor
      · rintro ⟨h₁, h₂, h₃⟩
        refine ⟨h₁, h₂, fun hc => ?_⟩
        obtain ⟨hs, hl⟩ := h₃ hc
        obtain ⟨n, rfl⟩ := List.length_eq_one_iff.mp hl
        exact ⟨n, rfl, by simpa using hs.symm⟩
      · rintro ⟨h₁, h₂, h₃⟩
        refine ⟨h₁, h₂, fun hc => ?_⟩
        obtain ⟨n, rfl, rfl⟩ := h₃ hc
        simp)

/-- `ttm_bo_validate` with the BO's placements; none for an outcome that TTM does not have. The
result tells whether it succeeded. -/
def Bo.validate (b : Bo) : Outcome → Option (Bo × Bool)
  | .fail => some (b, false)
  | .unbound =>
    if b.mem.memType = .tt then some ({ b with mem := ⟨.system, none, 0, b.mem.noEvict⟩ }, false)
    else none
  | .stay p =>
    if p ∈ b.placements ∧ p.memType = b.mem.memType ∧
        (p.memType = .vram → NodesFor d b.numPages p.contiguous (b.mem.mmNode.getD []) b.mem.start)
    then some ({ b with mem := { b.mem with noEvict := p.noEvict } }, true)
    else none
  | .move p nodes start =>
    if p ∈ b.placements ∧ (p.memType = .vram → NodesFor d b.numPages p.contiguous nodes start) then
      if (b.mem.memType = .vram ∨ p.memType = .vram) ∧ b.moveRefused then some (b, false)
      else some ({ b with
        mem := ⟨p.memType, if p.memType = .vram then some nodes else none, start, p.noEvict⟩ },
          true)
    else none

/-- The loop of `gsgpu_vram_mgr_bo_visible_size`. -/
def visibleLoop : List Node → BitVec 32 → ℕ
  | [], _ => 0
  | n :: ns, pages =>
    if pages = 0 then 0
    else n.visSize d.toConfig + visibleLoop ns (pages - BitVec.ofNat 32 n.size)

/-- `gsgpu_vram_mgr_bo_visible_size`. -/
def Bo.visibleSize (b : Bo) : ℕ :=
  if d.realVramSize = d.visibleVramSize then b.size
  else if d.visibleVramSize / pageSize ≤ b.mem.start then 0
  else match b.mem.mmNode with
    | none => 0
    | some nodes => visibleLoop d nodes (BitVec.ofNat 32 b.numPages)

end Gsgpu.Vram
