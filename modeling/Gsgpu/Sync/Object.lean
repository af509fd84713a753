import Gsgpu.Basic
import Gsgpu.Lib.Buckets

/-! `struct gsgpu_sync`: a set of fences to wait for, at most one for each fence context, in a
hash table of 16 buckets, and the last VM update among them. Fences that have signaled are
dropped lazily, by whoever walks over them. Sequence numbers are 32-bit and compared cyclically. -/
namespace Gsgpu.SyncObject

open Buckets

/-- A `dma_fence`, which its context and sequence number identify. -/
structure DmaFence where
  context : ℕ
  seqno : UInt32
deriving DecidableEq

/-- What is read of a `drm_sched_fence`: the device and ring of its scheduler, and whether its
owner is `GSGPU_FENCE_OWNER_VM`. -/
structure DrmSchedFence where
  adev : ℕ
  ring : ℕ
  vmOwner : Bool
deriving DecidableEq

namespace DmaFence

/-- `dma_fence_is_later`. Fences of different contexts are not compared: the kernel warns and
answers `false`. -/
def isLater (f₁ f₂ : DmaFence) : Bool :=
  f₁.context = f₂.context && decide (0 < (f₁.seqno - f₂.seqno).toNat) &&
    decide ((f₁.seqno - f₂.seqno).toNat < 2 ^ 31)

end DmaFence

/-- `struct gsgpu_sync_entry`. -/
structure SyncEntry where
  fence : DmaFence
  explicit : Bool
deriving DecidableEq

/-- `struct gsgpu_sync`. -/
structure Sync where
  fences : Fin 16 → List SyncEntry
  lastVmUpdate : Option DmaFence

/-- What a fence is of, as `to_drm_sched_fence` tells, and how contexts are hashed. -/
structure Env where
  toDrmSchedFence : DmaFence → Option DrmSchedFence
  hash : ℕ → Fin 16

namespace Sync

/-- `gsgpu_sync_create`. -/
def create : Sync := ⟨fun _ => [], none⟩

/-- `gsgpu_sync_same_dev`; a NULL device is `none`. -/
def sameDev (env : Env) (adev : Option ℕ) (f : DmaFence) : Bool :=
  match env.toDrmSchedFence f with
  | some s => some s.adev = adev
  | none => false

/-- Whether `gsgpu_sync_get_owner` is `GSGPU_FENCE_OWNER_VM`. -/
def ownerIsVm (env : Env) (f : DmaFence) : Bool :=
  match env.toDrmSchedFence f with
  | some s => s.vmOwner
  | none => false

/-- `gsgpu_sync_keep_later`. -/
def keepLater (keep : Option DmaFence) (fence : DmaFence) : DmaFence :=
  match keep with
  | some k => if k.isLater fence then k else fence
  | none => fence

/-- The loop of `gsgpu_sync_add_later` over a bucket; `none` when no entry has the context. -/
def addLater (f : DmaFence) (explicit : Bool) : List SyncEntry → Option (List SyncEntry)
  | [] => none
  | e :: es =>
    if e.fence.context = f.context then
      some (⟨keepLater (some e.fence) f, e.explicit || explicit⟩ :: es)
    else (addLater f explicit es).map (e :: ·)

/-- Whether `gsgpu_sync_fence` remembers the fence as a VM update. -/
def isVmUpdate (env : Env) (adev : Option ℕ) (f : DmaFence) : Bool :=
  sameDev env adev f && ownerIsVm env f

/-- `gsgpu_sync_fence` on a fence; `allocOk` is the outcome of `kmem_cache_alloc`. -/
def syncFence (env : Env) (adev : Option ℕ) (allocOk : Bool) (sync : Sync) (f : DmaFence)
    (explicit : Bool) : Except Errno Unit × Sync :=
  let sync := if isVmUpdate env adev f then
    { sync with lastVmUpdate := some (keepLater sync.lastVmUpdate f) } else sync
  let i := env.hash f.context
  match addLater f explicit (sync.fences i) with
  | some es => (.ok (), { sync with fences := Function.update sync.fences i es })
  | none =>
    if allocOk then
      (.ok (), { sync with fences := Function.update sync.fences i (⟨f, explicit⟩ :: sync.fences i) })
    else (.error .enomem, sync)

/-- What `gsgpu_sync_peek_fence` returns: the fence of an entry, or the scheduled fence of its
job. -/
inductive Peeked
  | fence (f : DmaFence)
  | scheduled (f : DmaFence)
deriving DecidableEq

/-- Which fences have signaled, and of which the job has been scheduled. -/
structure Signals where
  signaled : DmaFence → Bool
  scheduled : DmaFence → Bool

/-- The body of the loop of `gsgpu_sync_peek_fence`. -/
def peekEntry (env : Env) (sig : Signals) (ring : Option ℕ) (e : SyncEntry) : Verdict Peeked :=
  if sig.signaled e.fence then .drop
  else match ring, env.toDrmSchedFence e.fence with
    | some r, some s =>
      -- for fences from the same ring it is sufficient when they are scheduled
      if s.ring = r then
        if sig.scheduled e.fence then .keep else .stop true (.scheduled e.fence)
      else .stop true (.fence e.fence)
    | _, _ => .stop true (.fence e.fence)

/-- `gsgpu_sync_peek_fence`. -/
def peekFence (env : Env) (sig : Signals) (sync : Sync) (ring : Option ℕ) :
    Option Peeked × Sync :=
  let r := scan (peekEntry env sig ring) sync.fences
  (r.1, { sync with fences := r.2 })

/-- The body of the loop of `gsgpu_sync_get_fence`: every entry it meets leaves the table. -/
def getEntry (sig : Signals) (e : SyncEntry) : Verdict SyncEntry :=
  if sig.signaled e.fence then .drop else .stop false e

/-- `gsgpu_sync_get_fence`, with the flag it stores. -/
def getFence (sig : Signals) (sync : Sync) : Option SyncEntry × Sync :=
  let r := scan (getEntry sig) sync.fences
  (r.1, { sync with fences := r.2 })

/-- The body of the loop of `gsgpu_sync_wait`; `wait` is `dma_fence_wait`. -/
def waitEntry (wait : DmaFence → Except Errno Unit) (e : SyncEntry) : Verdict Errno :=
  match wait e.fence with
  | .ok () => .drop
  | .error r => .stop true r

/-- `gsgpu_sync_wait`. -/
def wait (dmaFenceWait : DmaFence → Except Errno Unit) (sync : Sync) : Except Errno Unit × Sync :=
  let r := scan (waitEntry dmaFenceWait) sync.fences
  (match r.1 with | some e => .error e | none => .ok (), { sync with fences := r.2 })

/-- The loop of `gsgpu_sync_clone` over a bucket of the source. -/
def cloneBucket (env : Env) (sig : Signals) (allocOk : DmaFence → Bool) :
    List SyncEntry → Sync → Except Errno Unit × List SyncEntry × Sync
  | [], clone => (.ok (), [], clone)
  | e :: es, clone =>
    if sig.signaled e.fence then cloneBucket env sig allocOk es clone
    else
      match syncFence env none (allocOk e.fence) clone e.fence e.explicit with
      | (.error r, clone) => (.error r, e :: es, clone)
      | (.ok (), clone) =>
        let r := cloneBucket env sig allocOk es clone
        (r.1, e :: r.2.1, r.2.2)

/-- The loop of `gsgpu_sync_clone` over the buckets that are left. -/
def cloneFrom (env : Env) (sig : Signals) (allocOk : DmaFence → Bool) :
    List (Fin 16) → (Fin 16 → List SyncEntry) → Sync →
      Except Errno Unit × (Fin 16 → List SyncEntry) × Sync
  | [], t, clone => (.ok (), t, clone)
  | i :: is, t, clone =>
    match cloneBucket env sig allocOk (t i) clone with
    | (.error r, es, clone) => (.error r, Function.update t i es, clone)
    | (.ok (), es, clone) => cloneFrom env sig allocOk is (Function.update t i es) clone

/-- `gsgpu_sync_clone`: the result, the source and the clone. -/
def clone (env : Env) (sig : Signals) (allocOk : DmaFence → Bool) (source clone : Sync) :
    Except Errno Unit × Sync × Sync :=
  match cloneFrom env sig allocOk (List.finRange 16) source.fences clone with
  | (.error r, t, clone) => (.error r, { source with fences := t }, clone)
  | (.ok (), t, clone) =>
    (.ok (), { source with fences := t }, { clone with lastVmUpdate := source.lastVmUpdate })

variable {env : Env}

/-- Entries are in the bucket of their context, one for each context. -/
def Wf (env : Env) (sync : Sync) : Prop :=
  Buckets.Wf (fun e : SyncEntry => e.fence.context) env.hash sync.fences

/-- The entry of a context. -/
def find (env : Env) (sync : Sync) (c : ℕ) : Option SyncEntry :=
  lookup (fun e : SyncEntry => e.fence.context) env.hash sync.fences c

theorem Wf.find_context {sync : Sync} (h : sync.Wf env) {c : ℕ} {e : SyncEntry}
    (he : sync.find env c = some e) : e.fence.context = c :=
  (h.lookup_eq_some_iff.mp he).2

/-- The entry of a context after another fence of it. -/
def merge (f : DmaFence) (explicit : Bool) : Option SyncEntry → SyncEntry
  | some e => ⟨keepLater (some e.fence) f, e.explicit || explicit⟩
  | none => ⟨f, explicit⟩

theorem keepLater_context {k f : DmaFence} (h : k.context = f.context) :
    (keepLater (some k) f).context = f.context := by
  simp only [keepLater]
  split
  · exact h
  · rfl

theorem addLater_eq_none {f : DmaFence} {explicit : Bool} {es : List SyncEntry}
    (h : addLater f explicit es = none) : ∀ e ∈ es, e.fence.context ≠ f.context := by
  induction es with
  | nil => simp
  | cons e es ih =>
    rw [addLater] at h
    split at h
    · cases h
    · next hne =>
      intro e' he'
      rcases List.mem_cons.mp he' with rfl | hmem
      · exact hne
      · exact ih (Option.map_eq_none_iff.mp h) e' hmem

/-- The first entry of the context is merged in its place. -/
theorem addLater_eq_some {f : DmaFence} {explicit : Bool} {es es' : List SyncEntry}
    (h : addLater f explicit es = some es') : ∃ l e r, es = l ++ e :: r ∧
      e.fence.context = f.context ∧ (∀ x ∈ l, x.fence.context ≠ f.context) ∧
      es' = l ++ merge f explicit (some e) :: r := by
  induction es generalizing es' with
  | nil => simp [addLater] at h
  | cons e es ih =>
    rw [addLater] at h
    split at h
    · next heq =>
      obtain rfl := Option.some.inj h
      exact ⟨[], e, es, rfl, heq, by simp, rfl⟩
    · next hne =>
      obtain ⟨es₁, hes₁, rfl⟩ := Option.map_eq_some_iff.mp h
      obtain ⟨l, x, r, rfl, hx, hl, rfl⟩ := ih hes₁
      refine ⟨e :: l, x, r, rfl, hx, ?_, rfl⟩
      intro y hy
      rcases List.mem_cons.mp hy with rfl | hmem
      · exact hne
      · exact hl y hmem

theorem merge_context {f : DmaFence} {explicit : Bool} {e : Option SyncEntry}
    (h : ∀ e', e = some e' → e'.fence.context = f.context) :
    (merge f explicit e).fence.context = f.context := by
  cases e with
  | none => rfl
  | some e' => exact keepLater_context (h e' rfl)

/-- Adding a fence to a bucket: it is merged with the entry of its context, or comes first. -/
def addBucket (f : DmaFence) (explicit : Bool) (es : List SyncEntry) : List SyncEntry :=
  (addLater f explicit es).getD (⟨f, explicit⟩ :: es)

/-- A call that succeeds changes the bucket of the context. -/
theorem syncFence_ok {adev : Option ℕ} {allocOk : Bool} {sync sync' : Sync} {f : DmaFence}
    {explicit : Bool} (h : syncFence env adev allocOk sync f explicit = (.ok (), sync')) :
    sync'.fences = Function.update sync.fences (env.hash f.context)
      (addBucket f explicit (sync.fences (env.hash f.context))) := by
  simp only [syncFence] at h
  have hfences : (if isVmUpdate env adev f then
      { sync with lastVmUpdate := some (keepLater sync.lastVmUpdate f) } else sync).fences =
      sync.fences := by split <;> rfl
  rw [hfences] at h
  cases hadd : addLater f explicit (sync.fences (env.hash f.context)) with
  | some es =>
    simp only [hadd] at h
    rw [← (Prod.mk.inj h).2, addBucket, hadd]
    rfl
  | none =>
    simp only [hadd] at h
    split at h
    · rw [← (Prod.mk.inj h).2, addBucket, hadd]
      rfl
    · cases h

/-- A call that fails leaves the table. -/
theorem syncFence_error {adev : Option ℕ} {allocOk : Bool} {sync sync' : Sync} {f : DmaFence}
    {explicit : Bool} {r : Errno}
    (h : syncFence env adev allocOk sync f explicit = (.error r, sync')) :
    sync'.fences = sync.fences := by
  simp only [syncFence] at h
  split at h
  · cases h
  · split at h
    · cases h
    · rw [← (Prod.mk.inj h).2]
      split <;> rfl

theorem syncFence_lastVmUpdate (adev : Option ℕ) (allocOk : Bool) (sync : Sync) (f : DmaFence)
    (explicit : Bool) : (syncFence env adev allocOk sync f explicit).2.lastVmUpdate =
      if isVmUpdate env adev f then some (keepLater sync.lastVmUpdate f)
      else sync.lastVmUpdate := by
  simp only [syncFence]
  split
  · split <;> rfl
  · split <;> split <;> rfl

/-- The entries of a bucket after an addition. -/
theorem find?_addBucket (f : DmaFence) (explicit : Bool) (es : List SyncEntry) (c : ℕ) :
    (addBucket f explicit es).find? (fun e => e.fence.context = c) =
      if c = f.context then some (merge f explicit (es.find? fun e => e.fence.context = c))
      else es.find? fun e => e.fence.context = c := by
  rw [addBucket]
  cases hadd : addLater f explicit es with
  | none =>
    have hnone := addLater_eq_none hadd
    rw [Option.getD_none]
    split
    · next hc =>
      subst hc
      have : es.find? (fun e => e.fence.context = f.context) = none := by
        rw [List.find?_eq_none]
        intro e he
        simpa using hnone e he
      simp [this, merge]
    · next hc =>
      rw [List.find?_cons_of_neg]
      simpa using Ne.symm hc
  | some es' =>
    obtain ⟨l, e, r, rfl, he, hl, rfl⟩ := addLater_eq_some hadd
    have hm : (merge f explicit (some e)).fence.context = f.context :=
      merge_context fun e' heq => Option.some.inj heq ▸ he
    rw [Option.getD_some, List.find?_append, List.find?_append]
    split
    · next hc =>
      subst hc
      have : l.find? (fun e => e.fence.context = f.context) = none := by
        rw [List.find?_eq_none]
        intro x hx
        simpa using hl x hx
      rw [this, Option.none_or, Option.none_or, List.find?_cons_of_pos (by simpa using hm),
        List.find?_cons_of_pos (by simpa using he)]
    · next hc =>
      rw [List.find?_cons_of_neg, List.find?_cons_of_neg]
      · simpa [he] using Ne.symm hc
      · simpa [hm] using Ne.symm hc

/-- The contexts of a bucket after an addition. -/
theorem map_addBucket (f : DmaFence) (explicit : Bool) (es : List SyncEntry) :
    (addBucket f explicit es).map (fun e => e.fence.context) =
      if f.context ∈ es.map (fun e => e.fence.context) then es.map fun e => e.fence.context
      else f.context :: es.map fun e => e.fence.context := by
  rw [addBucket]
  cases hadd : addLater f explicit es with
  | none =>
    have hnot : f.context ∉ es.map fun e => e.fence.context := by
      intro hmem
      obtain ⟨e, he, hctx⟩ := List.mem_map.mp hmem
      exact addLater_eq_none hadd e he hctx
    rw [if_neg hnot]
    rfl
  | some es' =>
    obtain ⟨l, e, r, rfl, he, -, rfl⟩ := addLater_eq_some hadd
    have hm : (merge f explicit (some e)).fence.context = f.context :=
      merge_context fun e' heq => Option.some.inj heq ▸ he
    simp [hm, he]

/-- A successful addition, as the map from contexts to entries sees it. -/
theorem Wf.syncFence {adev : Option ℕ} {allocOk : Bool} {sync sync' : Sync} (hwf : sync.Wf env)
    {f : DmaFence} {explicit : Bool}
    (h : syncFence env adev allocOk sync f explicit = (.ok (), sync')) :
    sync'.Wf env ∧ ∀ c, sync'.find env c =
      if c = f.context then some (merge f explicit (sync.find env c)) else sync.find env c := by
  have hfences := syncFence_ok h
  have hkeys := map_addBucket f explicit (sync.fences (env.hash f.context))
  constructor
  · rw [Wf, hfences]
    refine Buckets.Wf.update hwf ?_ ?_
    · intro e he
      have hmem := List.mem_map_of_mem (f := fun e : SyncEntry => e.fence.context) he
      rw [hkeys] at hmem
      have hold : e.fence.context ∈
          (sync.fences (env.hash f.context)).map (fun e => e.fence.context) →
          env.hash e.fence.context = env.hash f.context := by
        intro hin
        obtain ⟨e', he', hctx⟩ := List.mem_map.mp hin
        rw [← hctx]
        exact hwf.bucket _ e' he'
      split at hmem
      · exact hold hmem
      · rcases List.mem_cons.mp hmem with heq | hin
        · rw [heq]
        · exact hold hin
    · rw [hkeys]
      split
      · exact hwf.nodup _
      · next hnot => exact List.nodup_cons.mpr ⟨hnot, hwf.nodup _⟩
  · intro c
    by_cases hc : env.hash c = env.hash f.context
    · rw [find, hfences, ← hc, lookup_update_self, hc, find?_addBucket]
      simp only [find, lookup, hc]
    · have hne : c ≠ f.context := fun heq => hc (by rw [heq])
      rw [find, hfences, lookup_update_of_ne hc, if_neg hne, find]

section Clone

variable {sig : Signals} {allocOk : DmaFence → Bool}

/-- The entries of a bucket that are cloned. -/
def unsignaled (sig : Signals) (es : List SyncEntry) : List SyncEntry :=
  es.filter fun e => !sig.signaled e.fence

/-- The cloned entry of a context is its entry, if that has not signaled. -/
theorem find?_unsignaled {es : List SyncEntry}
    (hnodup : (es.map fun e => e.fence.context).Nodup) (c : ℕ) :
    (unsignaled sig es).find? (fun e => e.fence.context = c) =
      (es.find? fun e => e.fence.context = c).filter fun e => !sig.signaled e.fence := by
  induction es with
  | nil => rfl
  | cons e es ih =>
    rw [List.map_cons, List.nodup_cons] at hnodup
    rw [unsignaled, List.filter_cons, ← unsignaled]
    by_cases hc : e.fence.context = c
    · rw [List.find?_cons_of_pos (l := es) (by simpa using hc)]
      split
      · next hun =>
        rw [List.find?_cons_of_pos (by simpa using hc), Option.filter_some, if_pos hun]
      · next hsig =>
        have hnone : es.find? (fun e => e.fence.context = c) = none := by
          rw [List.find?_eq_none]
          intro x hx heq
          simp only [decide_eq_true_eq] at heq
          exact hnodup.1 (hc.trans heq.symm ▸
            List.mem_map_of_mem (f := fun e : SyncEntry => e.fence.context) hx)
        rw [ih hnodup.2, hnone, Option.filter_some, if_neg hsig, Option.filter_none]
    · rw [List.find?_cons_of_neg (l := es) (by simpa using hc), ← ih hnodup.2]
      split
      · rw [List.find?_cons_of_neg (by simpa using hc)]
      · rfl

/-- Cloning a bucket whose contexts the clone does not have yet. -/
theorem cloneBucket_ok {es es' : List SyncEntry} {clone clone' : Sync} (hwf : clone.Wf env)
    (hnodup : (es.map fun e => e.fence.context).Nodup)
    (hfresh : ∀ e ∈ es, clone.find env e.fence.context = none)
    (h : cloneBucket env sig allocOk es clone = (.ok (), es', clone')) :
    es' = unsignaled sig es ∧ clone'.Wf env ∧ ∀ c, clone'.find env c =
      ((unsignaled sig es).find? fun e => e.fence.context = c).or (clone.find env c) := by
  induction es generalizing es' clone with
  | nil =>
    obtain ⟨-, rfl, rfl⟩ := h
    exact ⟨rfl, hwf, fun c => rfl⟩
  | cons e es ih =>
    rw [List.map_cons, List.nodup_cons] at hnodup
    have hfresh' : ∀ x ∈ es, clone.find env x.fence.context = none :=
      fun x hx => hfresh x (List.mem_cons_of_mem e hx)
    rw [cloneBucket] at h
    by_cases hsig : sig.signaled e.fence = true
    · rw [if_pos hsig] at h
      have hun : unsignaled sig (e :: es) = unsignaled sig es := by simp [unsignaled, hsig]
      rw [hun]
      exact ih hwf hnodup.2 hfresh' h
    · rw [if_neg hsig] at h
      have hun : unsignaled sig (e :: es) = e :: unsignaled sig es := by simp [unsignaled, hsig]
      rcases hadd : syncFence env none (allocOk e.fence) clone e.fence e.explicit with
        ⟨r | ⟨⟩, clone₁⟩
      · rw [hadd] at h
        cases h
      · obtain ⟨hwf₁, hfind₁⟩ := hwf.syncFence hadd
        have hself : merge e.fence e.explicit (clone.find env e.fence.context) = e := by
          rw [hfresh e List.mem_cons_self, merge]
        have hfresh₁ : ∀ x ∈ es, clone₁.find env x.fence.context = none := by
          intro x hx
          have hne : x.fence.context ≠ e.fence.context := by
            intro heq
            exact hnodup.1 (heq ▸ List.mem_map_of_mem (f := fun e : SyncEntry => e.fence.context) hx)
          rw [hfind₁, if_neg hne, hfresh' x hx]
        rw [hadd] at h
        simp only at h
        rcases hrest : cloneBucket env sig allocOk es clone₁ with ⟨r, es₁, clone₂⟩
        rw [hrest] at h
        simp only [Prod.mk.injEq] at h
        obtain ⟨rfl, rfl, rfl⟩ := h
        obtain ⟨hes, hwf₂, hfind₂⟩ := ih hwf₁ hnodup.2 hfresh₁ hrest
        refine ⟨by rw [hun, hes], hwf₂, fun c => ?_⟩
        rw [hfind₂, hfind₁, hun]
        by_cases hc : c = e.fence.context
        · subst hc
          have hnone : (unsignaled sig es).find?
              (fun x => x.fence.context = e.fence.context) = none := by
            rw [List.find?_eq_none]
            intro x hx heq
            have hmem := List.mem_map_of_mem (f := fun e : SyncEntry => e.fence.context)
              (List.mem_of_mem_filter hx)
            simp only [decide_eq_true_eq] at heq
            exact hnodup.1 (heq ▸ hmem)
          rw [hnone, if_pos rfl, hself, List.find?_cons_of_pos (by simp)]
          rfl
        · rw [if_neg hc, List.find?_cons_of_neg]
          simpa using Ne.symm hc

/-- Cloning the buckets that are left. -/
theorem cloneFrom_ok {is : List (Fin 16)} (his : is.Nodup) {t t' : Fin 16 → List SyncEntry}
    {clone clone' : Sync}
    (ht : Buckets.Wf (fun e : SyncEntry => e.fence.context) env.hash t) (hwf : clone.Wf env)
    (hfresh : ∀ i ∈ is, ∀ e ∈ t i, clone.find env e.fence.context = none)
    (h : cloneFrom env sig allocOk is t clone = (.ok (), t', clone')) :
    (∀ i, t' i = if i ∈ is then unsignaled sig (t i) else t i) ∧ clone'.Wf env ∧
      ∀ c, clone'.find env c = if env.hash c ∈ is then
        ((unsignaled sig (t (env.hash c))).find? fun e => e.fence.context = c).or
          (clone.find env c) else clone.find env c := by
  induction is generalizing t clone with
  | nil =>
    obtain ⟨-, rfl, rfl⟩ := h
    exact ⟨fun i => rfl, hwf, fun c => rfl⟩
  | cons i is ih =>
    rw [List.nodup_cons] at his
    rw [cloneFrom] at h
    rcases hone : cloneBucket env sig allocOk (t i) clone with ⟨r | ⟨⟩, es, clone₁⟩
    · rw [hone] at h
      cases h
    · obtain ⟨hes, hwf₁, hfind₁⟩ :=
        cloneBucket_ok hwf (ht.nodup i) (hfresh i List.mem_cons_self) hone
      rw [hone] at h
      simp only at h
      subst hes
      have ht₁ : Buckets.Wf (fun e : SyncEntry => e.fence.context) env.hash
          (Function.update t i (unsignaled sig (t i))) := by
        refine ht.sublist fun j => ?_
        by_cases hj : j = i
        · subst hj
          rw [Function.update_self]
          exact List.filter_sublist
        · rw [Function.update_of_ne hj]
      have hother : ∀ j, j ≠ i → Function.update t i (unsignaled sig (t i)) j = t j :=
        fun j hj => Function.update_of_ne hj _ _
      have hne : ∀ j ∈ is, j ≠ i := fun j hj heq => his.1 (heq ▸ hj)
      -- what is cloned of this bucket does not show in the others
      have helse : ∀ c, env.hash c ≠ i → clone₁.find env c = clone.find env c := by
        intro c hc
        have hnone : (unsignaled sig (t i)).find? (fun x => x.fence.context = c) = none := by
          rw [List.find?_eq_none]
          intro x hx heq
          simp only [decide_eq_true_eq] at heq
          exact hc (heq ▸ ht.bucket i x (List.mem_of_mem_filter hx))
        rw [hfind₁, hnone]
        rfl
      have hfresh₁ : ∀ j ∈ is, ∀ e ∈ Function.update t i (unsignaled sig (t i)) j,
          clone₁.find env e.fence.context = none := by
        intro j hj e he
        rw [hother j (hne j hj)] at he
        have hc : env.hash e.fence.context ≠ i := ht.bucket j e he ▸ hne j hj
        rw [helse _ hc, hfresh j (List.mem_cons_of_mem i hj) e he]
      obtain ⟨ht', hwf', hfind'⟩ := ih his.2 ht₁ hwf₁ hfresh₁ h
      refine ⟨fun j => ?_, hwf', fun c => ?_⟩
      · by_cases hj : j = i
        · subst hj
          rw [ht', if_neg his.1, Function.update_self, if_pos List.mem_cons_self]
        · simp only [ht', hother j hj, List.mem_cons, hj, false_or]
      · by_cases hc : env.hash c = i
        · subst hc
          rw [hfind', if_neg his.1, hfind₁, if_pos List.mem_cons_self]
        · simp only [hfind', hother _ hc, helse c hc, List.mem_cons, hc, false_or]

/-- A clone of an object has its unsignaled entries, and the object keeps no others. -/
theorem clone_ok {source source' clone' : Sync} (hwf : source.Wf env)
    (h : clone env sig allocOk source create = (.ok (), source', clone')) :
    (∀ i, source'.fences i = unsignaled sig (source.fences i)) ∧
      source'.lastVmUpdate = source.lastVmUpdate ∧ clone'.Wf env ∧
      clone'.lastVmUpdate = source.lastVmUpdate ∧
      ∀ c, clone'.find env c = (source.find env c).filter fun e => !sig.signaled e.fence := by
  rw [clone] at h
  have hcreate : create.Wf env :=
    ⟨fun i e he => (List.not_mem_nil he).elim, fun i => List.nodup_nil⟩
  rcases hfrom : cloneFrom env sig allocOk (List.finRange 16) source.fences create with
    ⟨r | ⟨⟩, t, c₁⟩
  · rw [hfrom] at h
    cases h
  · rw [hfrom] at h
    obtain ⟨-, rfl, rfl⟩ := h
    obtain ⟨ht, hwf', hfind⟩ :=
      cloneFrom_ok (List.nodup_finRange 16) hwf hcreate (fun _ _ _ _ => rfl) hfrom
    refine ⟨fun i => (ht i).trans (if_pos (List.mem_finRange i)), rfl, hwf', rfl, fun c => ?_⟩
    have hfind' := hfind c
    rw [if_pos (List.mem_finRange _), find?_unsignaled (hwf.nodup _)] at hfind'
    exact hfind'.trans Option.or_none

end Clone

end Sync

end Gsgpu.SyncObject
