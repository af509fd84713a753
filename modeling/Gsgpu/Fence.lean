import Mathlib.Logic.Function.Basic
import Mathlib.Data.List.Basic

/-! Fences and sync objects. `dma_fence` itself is the kernel's: a fence is known here by what
issued it and its place in that order, and whether it has signaled is asked of the caller's
`signaled`. -/
namespace Gsgpu

/-- A `drm_sched_fence`: one job of an entity, on the ring of its scheduler. `vmOwner` says
that its owner is `GSGPU_FENCE_OWNER_VM`. -/
structure SchedFence where
  entity : ℕ
  ring : ℕ
  seqno : ℕ
  vmOwner : Bool
deriving DecidableEq

/-- The fences the VMID code handles. -/
inductive Fence
  | scheduled (job : SchedFence)
  | finished (job : SchedFence)
  | hw (ring seqno : ℕ)
  | array (ring seqno : ℕ)
deriving DecidableEq

/-- A fence context, as `dma_fence_context_alloc` keeps them apart. -/
inductive FenceContext
  | scheduled (entity : ℕ)
  | finished (entity : ℕ)
  | hw (ring : ℕ)
  | vmidWait (ring : ℕ)
deriving DecidableEq

namespace Fence

def context : Fence → FenceContext
  | scheduled job => .scheduled job.entity
  | finished job => .finished job.entity
  | hw ring _ => .hw ring
  | array ring _ => .vmidWait ring

def seqno : Fence → ℕ
  | scheduled job => job.seqno
  | finished job => job.seqno
  | hw _ seqno => seqno
  | array _ seqno => seqno

/-- `to_drm_sched_fence`. -/
def toDrmSchedFence : Fence → Option SchedFence
  | scheduled job => some job
  | finished job => some job
  | hw _ _ => none
  | array _ _ => none

/-- `dma_fence_is_later`: the later of two fences of one context. Fences of different contexts
are not compared: the kernel warns and answers `false`. -/
def isLater (f₁ f₂ : Fence) : Bool :=
  f₁.context = f₂.context && decide (f₂.seqno < f₁.seqno)

end Fence

/-- `struct gsgpu_sync_entry`. -/
structure SyncEntry where
  fence : Fence
  explicit : Bool
deriving DecidableEq

/-- `struct gsgpu_sync`: the entries of the hash, and the last VM update among the fences. -/
structure Sync where
  fences : List SyncEntry
  lastVmUpdate : Option Fence
deriving DecidableEq

namespace Sync

/-- `gsgpu_sync_create`. -/
def create : Sync := ⟨[], none⟩

/-- `gsgpu_sync_keep_later`. -/
def keepLater (keep : Option Fence) (fence : Fence) : Option Fence :=
  match keep with
  | some k => if k.isLater fence then some k else some fence
  | none => some fence

/-- `gsgpu_sync_add_later`: `none` when no entry has the fence's context. -/
def addLater : List SyncEntry → Fence → Bool → Option (List SyncEntry)
  | [], _, _ => none
  | e :: es, f, explicit =>
    if e.fence.context = f.context then
      some ((if e.fence.isLater f then { e with explicit := e.explicit || explicit }
        else ⟨f, e.explicit || explicit⟩) :: es)
    else (addLater es f explicit).map (e :: ·)

/-- Whether `gsgpu_sync_fence` remembers the fence as a VM update of this device. -/
def isVmUpdate (f : Fence) : Bool :=
  match f.toDrmSchedFence with
  | some s => s.vmOwner
  | none => false

/-- `gsgpu_sync_fence`; the flag says whether it returned 0 rather than `-ENOMEM`. `allocOk`
is the outcome of `kmem_cache_alloc`. -/
def syncFence (allocOk : Bool) (sync : Sync) (f : Option Fence) (explicit : Bool) : Bool × Sync :=
  match f with
  | none => (true, sync)
  | some f =>
    let sync := if isVmUpdate f then
      { sync with lastVmUpdate := keepLater sync.lastVmUpdate f } else sync
    match addLater sync.fences f explicit with
    | some es => (true, { sync with fences := es })
    | none =>
      if allocOk then (true, { sync with fences := ⟨f, explicit⟩ :: sync.fences })
      else (false, sync)

/-- The loop of `gsgpu_sync_peek_fence`: signaled entries are dropped on the way to the fence
that is returned. -/
def peekEntries (signaled : Fence → Bool) (ring : Option ℕ) :
    List SyncEntry → Option Fence × List SyncEntry
  | [] => (none, [])
  | e :: es =>
    if signaled e.fence then peekEntries signaled ring es
    else
      let skip := let r := peekEntries signaled ring es; (r.1, e :: r.2)
      match ring, e.fence.toDrmSchedFence with
      | some r, some s =>
        -- for fences from the same ring it is sufficient when they are scheduled
        if s.ring = r then
          if signaled (.scheduled s) then skip else (some (.scheduled s), e :: es)
        else (some e.fence, e :: es)
      | _, _ => (some e.fence, e :: es)

/-- `gsgpu_sync_peek_fence`. -/
def peekFence (signaled : Fence → Bool) (sync : Sync) (ring : Option ℕ) : Option Fence × Sync :=
  let r := peekEntries signaled ring sync.fences
  (r.1, { sync with fences := r.2 })

end Sync
end Gsgpu
