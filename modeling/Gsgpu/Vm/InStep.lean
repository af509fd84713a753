import Gsgpu.Vm.Settled

/-! The `vm_status` lists in step with the page tables: a `bo_va` whose entries may be stale is
queued, through every request of user space. -/
namespace Gsgpu.Vm

namespace Status
variable {st : Status} {k k' : Key}

/-- The `bo_va` is on a list that the next submission goes through. -/
def Queued (st : Status) (k : Key) : Prop := k ∈ st.moved ∨ k ∈ st.evicted

theorem unlink_sublist (st : Status) (k : Key) : (st.unlink k).all.Sublist st.all := by
  unfold unlink all
  exact ((List.erase_sublist.append List.erase_sublist).append List.erase_sublist).append
    List.erase_sublist

theorem not_mem_unlink (h : st.all.Nodup) (k : Key) : k ∉ (st.unlink k).all := by
  unfold all at h
  obtain ⟨h₁, hidle, -⟩ := List.nodup_append.mp h
  obtain ⟨h₂, hmoved, -⟩ := List.nodup_append.mp h₁
  obtain ⟨hev, hrel, -⟩ := List.nodup_append.mp h₂
  simp [all, unlink, hev.not_mem_erase, hrel.not_mem_erase, hmoved.not_mem_erase,
    hidle.not_mem_erase]

theorem queued_unlink (hk : k' ≠ k) (h : st.Queued k') : (st.unlink k).Queued k' := by
  rcases h with h | h
  · exact .inl ((List.mem_erase_of_ne hk).mpr h)
  · exact .inr ((List.mem_erase_of_ne hk).mpr h)

/-- One node put on one list after it was taken off all of them. -/
theorem nodup_of_perm (h : st.all.Nodup) {st' : Status}
    (hp : st'.all.Perm (k :: (st.unlink k).all)) : st'.all.Nodup := by
  apply hp.nodup_iff.mpr
  apply List.nodup_cons.mpr
  exact ⟨not_mem_unlink h k, h.sublist (unlink_sublist st k)⟩

theorem nodup_moveToMoved (h : st.all.Nodup) (k : Key) : (st.moveToMoved k).all.Nodup := by
  apply nodup_of_perm h (k := k)
  unfold moveToMoved all
  simp only [List.append_assoc]
  rw [← List.append_assoc, ← List.append_assoc (st.unlink k).evicted]
  exact List.perm_middle

theorem nodup_moveToEvicted (h : st.all.Nodup) (k : Key) : (st.moveToEvicted k).all.Nodup := by
  apply nodup_of_perm h (k := k)
  unfold moveToEvicted all
  simp only [List.append_assoc]
  exact List.perm_middle

/-- After an update the node is on one list, or on none. -/
theorem statusAfterUpdate_perm (s : State) (k : Key) :
    (statusAfterUpdate s k).all.Perm (k :: (s.status.unlink k).all) ∨
      (statusAfterUpdate s k).all = (s.status.unlink k).all := by
  unfold statusAfterUpdate
  dsimp only
  split
  · exact .inr rfl
  · split_ifs
    · left
      unfold all
      exact List.perm_middle
    · left
      unfold all
      simp only [List.append_assoc]
      exact List.perm_middle
    · exact .inr rfl

/-- The nodes of other lists stay apart from those of the VM. -/
theorem nodup_append_statusAfterUpdate {s : State} {ks : List Key}
    (h : (k :: ks ++ s.status.all).Nodup) : (ks ++ (statusAfterUpdate s k).all).Nodup := by
  have hsub : (k :: ks ++ (s.status.unlink k).all).Nodup :=
    h.sublist ((List.Sublist.refl _).append (unlink_sublist s.status k))
  rcases statusAfterUpdate_perm s k with hp | heq
  · have hperm : (ks ++ (statusAfterUpdate s k).all).Perm (k :: ks ++ (s.status.unlink k).all) :=
      (hp.append_left ks).trans List.perm_middle
    exact hperm.nodup_iff.mpr hsub
  · rw [heq]
    exact hsub.sublist ((List.sublist_cons_self k ks).append_right _)

theorem nodup_statusAfterUpdate {s : State} (h : s.status.all.Nodup) (k : Key) :
    (statusAfterUpdate s k).all.Nodup := by
  rcases statusAfterUpdate_perm s k with hp | heq
  · exact nodup_of_perm h hp
  · rw [heq]
    exact h.sublist (unlink_sublist s.status k)

theorem queued_moveToMoved (h : st.Queued k') (k : Key) : (st.moveToMoved k).Queued k' := by
  by_cases hk : k' = k
  · exact .inl (by simp [moveToMoved, hk])
  · rcases queued_unlink hk h with h | h
    · exact .inl (List.mem_cons_of_mem _ h)
    · exact .inr h

theorem queued_moveToEvicted (h : st.Queued k') (k : Key) : (st.moveToEvicted k).Queued k' := by
  by_cases hk : k' = k
  · exact .inr (by simp [moveToEvicted, hk])
  · rcases queued_unlink hk h with h | h
    · exact .inl h
    · exact .inr (List.mem_append_left _ h)

theorem queued_statusAfterUpdate {s : State} (hk : k' ≠ k) (h : s.status.Queued k') :
    (statusAfterUpdate s k).Queued k' := by
  have hunlink := queued_unlink hk h
  unfold statusAfterUpdate
  dsimp only
  split
  · exact hunlink
  · split_ifs
    · exact hunlink
    · rcases hunlink with h | h
      · exact .inl h
      · exact .inr (List.mem_append_left _ h)
    · exact hunlink

end Status

theorem vmBoInvalidate_bos (s : State) (b : ℕ) (evicted : Bool) :
    (vmBoInvalidate s b evicted).bos = s.bos := by
  unfold vmBoInvalidate
  cases s.boVas (some b) with
  | none => rfl
  | some bv =>
    dsimp only
    split_ifs <;> rfl

theorem vmBoInvalidate_pte (s : State) (b : ℕ) (evicted : Bool) :
    (vmBoInvalidate s b evicted).pte = s.pte := by
  unfold vmBoInvalidate
  cases s.boVas (some b) with
  | none => rfl
  | some bv =>
    dsimp only
    split_ifs <;> rfl

/-- What every state keeps in which no mapping has lost its tail. -/
structure InStep (s : State) : Prop where
  synced : Synced s.status.Queued s
  nodup : s.status.all.Nodup
  prt : s.boVas none ≠ none

namespace InStep
variable {s : State}

theorem orderly (h : InStep s) : Orderly s := ⟨h.synced.tidy, h.prt⟩

theorem insertMap (h : InStep s) {m : Mapping} (hoff : m.offset < 2 ^ 64)
    (hm : m.start ≤ m.last ∧ m.last < maxPfn)
    (hfree : ∀ m' ∈ s.va, ¬ m'.Overlaps m.start m.last) (hlive : s.boVas m.boVa ≠ none) :
    InStep (vmBoInsertMap s m) := by
  obtain ⟨b, hb⟩ := Option.ne_none_iff_exists'.mp hlive
  have htidy := h.synced.tidy.vmBoInsertMap hm hfree hlive
  have hstatus : (vmBoInsertMap s m).status =
      if s.perVm m.boVa && !b.moved then s.status.moveToMoved m.boVa else s.status := by
    unfold vmBoInsertMap
    simp only [hb]
    split_ifs <;> rfl
  have hmono : ∀ k, s.status.Queued k → (vmBoInsertMap s m).status.Queued k := by
    intro k hk
    rw [hstatus]
    split_ifs
    · exact Status.queued_moveToMoved hk m.boVa
    · exact hk
  constructor
  · have hsynced := h.synced.mono (fun k _ => hmono k)
    apply hsynced.insertMap hoff htidy
    intro hper
    -- queued now, or queued when the BO was moved
    cases hmoved : b.moved with
    | false =>
      rw [hstatus]
      simp [hper, hmoved, Status.Queued, Status.moveToMoved]
    | true => exact hmono _ (h.synced.flagged m.boVa b hb hper hmoved)
  · rw [hstatus]
    split_ifs
    · exact Status.nodup_moveToMoved h.nodup m.boVa
    · exact h.nodup
  · rw [vmBoInsertMap_boVas]
    exact addInvalid_ne_none m h.prt

theorem clearRange (h : InStep s) {f l : ℕ} (ht : NoTail s f l) : InStep (clearRange s f l) :=
  ⟨h.synced.clearRange ht, h.nodup, clearRange_ne_none h.prt⟩

theorem unmap (h : InStep s) (k : Key) (saddr : ℕ) : InStep (vmBoUnmap s k saddr).2 := by
  have hstatus : (vmBoUnmap s k saddr).2.status = s.status := by
    unfold vmBoUnmap
    cases s.boVas k with
    | none => rfl
    | some b =>
      dsimp only
      split
      · rfl
      · split <;> rfl
  constructor
  · rw [hstatus]
    exact h.synced.unmap k saddr
  · rw [hstatus]
    exact h.nodup
  · exact vmBoUnmap_ne_none s k saddr h.prt

theorem clearFreed (h : InStep s) (budget : ℕ) : InStep (vmClearFreed s budget).val :=
  ⟨h.synced.clearFreed budget, h.nodup, h.prt⟩

theorem rmv (h : InStep s) (b : ℕ) : InStep (vmBoRmv s (some b)) := by
  have hrmv := h.synced.rmv (some b)
  cases hb : s.boVas (some b) with
  | none =>
    simp only [vmBoRmv, hb]
    exact h
  | some bv =>
    have hnone : (vmBoRmv s (some b)).boVas (some b) = none := by simp [vmBoRmv, hb]
    have hstatus : (vmBoRmv s (some b)).status = s.status.unlink (some b) := by
      simp [vmBoRmv, hb]
    constructor
    · rw [hstatus]
      exact (hrmv.drop hnone).mono fun k _ hk => Status.queued_unlink hk.2 hk.1
    · rw [hstatus]
      exact h.nodup.sublist (Status.unlink_sublist s.status (some b))
    · simpa [vmBoRmv, hb] using h.prt

/-- A change of the reference count. -/
theorem setRefCount (h : InStep s) {k : Key} {bv : BoVa} (hb : s.boVas k = some bv) (n : ℕ) :
    InStep (s.setBoVa k { bv with refCount := n }) := by
  have hperm : (bv.valids ++ bv.invalids).Perm (listsOf s.boVas k) := by rw [listsOf, hb]
  have hsame : SameLists s (s.setBoVa k { bv with refCount := n }) := .setBoVa rfl rfl hperm
  constructor
  · apply h.synced.change (hsame.tidy h.synced.tidy) h.synced.offsets
    · exact .update hb rfl rfl fun _ hm => hm
    · rfl
    · rfl
    · exact fun m hm => .inr ⟨m, hm, .refl m⟩
    · exact fun f hf => .inl hf
  · exact h.nodup
  · exact hsame.live none h.prt

theorem add (h : InStep s) {b : ℕ} (hb : s.boVas (some b) = none) :
    InStep (vmBoAdd s (some b)) := by
  have hprt := (sameLists_vmBoAdd hb).live none h.prt
  revert hprt
  unfold vmBoAdd
  dsimp only
  split_ifs with hper
  · intro hprt
    have hmono := h.synced.mono fun k _ hk => Status.queued_moveToEvicted hk (some b)
    have hadd : Synced (s.status.moveToEvicted (some b)).Queued
        (s.setBoVa (some b) ⟨1, true, false, [], []⟩) :=
      hmono.add hb (fun _ _ => .inr (by simp [Status.moveToEvicted])) rfl ⟨rfl, rfl⟩
    exact ⟨hadd.of_eq rfl rfl rfl rfl rfl, Status.nodup_moveToEvicted h.nodup _, hprt⟩
  · intro hprt
    have hadd : Synced s.status.Queued (s.setBoVa (some b) ⟨1, false, false, [], []⟩) :=
      h.synced.add hb (fun _ hm => by cases hm) rfl ⟨rfl, rfl⟩
    exact ⟨hadd, h.nodup, hprt⟩

/-- Where `gsgpu_vm_bo_invalidate` leaves the node of a `bo_va`. -/
def invalidateStatus (s : State) (b : ℕ) (bv : BoVa) (evicted : Bool) : Status :=
  if evicted && (s.bos b).perVm then s.status.moveToEvicted (some b)
  else if bv.moved then s.status else s.status.moveToMoved (some b)

theorem vmBoInvalidate_eq {b : ℕ} {bv : BoVa} (hb : s.boVas (some b) = some bv) (evicted : Bool) :
    vmBoInvalidate s b evicted = { s.setBoVa (some b) { bv with moved := true } with
      status := invalidateStatus s b bv evicted } := by
  simp only [vmBoInvalidate, hb, invalidateStatus]
  split_ifs <;> rfl

/-- A BO is moved, or only said to be. -/
theorem boMove (h : InStep s) (b : ℕ) (evicted : Bool) (mem : Mem) :
    InStep (boMove s b evicted mem) := by
  cases hb : s.boVas (some b) with
  | none =>
    have heq : vmBoInvalidate s b evicted = s := by simp [vmBoInvalidate, hb]
    unfold Vm.boMove
    rw [heq]
    exact ⟨h.synced.setBo { s.bos b with mem := mem } (.inl hb) rfl, h.nodup, h.prt⟩
  | some bv =>
    have hmono : ∀ k, s.status.Queued k → (invalidateStatus s b bv evicted).Queued k := by
      intro k hk
      unfold invalidateStatus
      split_ifs
      · exact Status.queued_moveToEvicted hk _
      · exact hk
      · exact Status.queued_moveToMoved hk _
    have hq : s.perVm (some b) = true → (invalidateStatus s b bv evicted).Queued (some b) := by
      intro hper
      cases hmoved : bv.moved with
      | true => exact hmono _ (h.synced.flagged (some b) bv hb hper hmoved)
      | false =>
        unfold invalidateStatus
        split_ifs with hev hm
        · exact .inr (by simp [Status.moveToEvicted])
        · simp [hmoved] at hm
        · exact .inl (by simp [Status.moveToMoved])
    have hmove := (h.synced.mono fun k _ => hmono k).move { s.bos b with mem := mem } hb rfl hq
    unfold Vm.boMove
    rw [vmBoInvalidate_eq hb]
    constructor
    · exact hmove.of_eq rfl rfl rfl rfl rfl
    · show (invalidateStatus s b bv evicted).all.Nodup
      unfold invalidateStatus
      split_ifs
      · exact Status.nodup_moveToEvicted h.nodup _
      · exact h.nodup
      · exact Status.nodup_moveToMoved h.nodup _
    · simpa [State.setBoVa, Function.update_of_ne] using h.prt

theorem invalidate (h : InStep s) (b : ℕ) (evicted : Bool) :
    InStep (vmBoInvalidate s b evicted) := by
  have hmove := h.boMove b evicted (s.bos b).mem
  have hbos := vmBoInvalidate_bos s b evicted
  have heq : Vm.boMove s b evicted (s.bos b).mem = vmBoInvalidate s b evicted := by
    unfold Vm.boMove
    simp only [hbos, Function.update_eq_self]
    rw [← hbos]
  rwa [heq] at hmove

theorem setPlacement (h : InStep s) (b : ℕ) (preferred : Mem → Bool) :
    InStep (gemSetPlacement s b preferred) := by
  have hbo : InStep
      { s with bos := Function.update s.bos b { s.bos b with preferred := preferred } } :=
    ⟨h.synced.setBo _ (.inr rfl) rfl, h.nodup, h.prt⟩
  unfold gemSetPlacement
  dsimp only
  split_ifs
  · exact hbo.invalidate b true
  · exact hbo

variable {env : UpdateEnv} {k : Key} {budget : ℕ} {r : Result State}

theorem vmBoUpdate_status {clear : Bool} {b : BoVa} (hb : s.boVas k = some b)
    (hr : vmBoUpdate env s k clear budget = some r) :
    r.val.status = if r.ok then statusAfterUpdate s k else s.status := by
  obtain ⟨u, -, hok, hval⟩ := vmBoUpdate_cases hb hr
  rw [hval, hok]
  split_ifs <;> rfl

theorem update (h : InStep s) (henv : env.Bounded) (hfreed : s.freed = [])
    (hr : vmBoUpdate env s k false budget = some r) : InStep r.val := by
  have hprt := (sameLists_vmBoUpdate hr).live none h.prt
  cases hb : s.boVas k with
  | none =>
    rw [vmBoUpdate_of_none hb hr]
    exact h
  | some b =>
    have hst := vmBoUpdate_status hb hr
    cases hok : r.ok with
    | false =>
      rw [hok, if_neg Bool.false_ne_true] at hst
      constructor
      · rw [hst]
        exact h.synced.update henv hfreed (fun hc => by cases hc) hr
      · rw [hst]
        exact h.nodup
      · exact hprt
    | true =>
      rw [hok, if_pos rfl] at hst
      constructor
      · rw [hst]
        exact (h.synced.update_ok henv hfreed hr hok).mono
          fun k' _ hk' => Status.queued_statusAfterUpdate hk'.2 hk'.1
      · rw [hst]
        exact Status.nodup_statusAfterUpdate h.nodup k
      · exact hprt

end InStep

section Ioctl
variable {env : IoctlEnv} {req : VaRequest} {s s' : State}

theorem vmClearFreed_freed {s : State} {budget : ℕ} (h : (vmClearFreed s budget).ok = true) :
    (vmClearFreed s budget).val.freed = [] := clearFreedLoop_ok h

theorem InStep.gemVaUpdateVm {k : Key} {operation : ℕ} (h : InStep s)
    (henv : env.update.Bounded) (hr : gemVaUpdateVm env s k operation = some s') : InStep s' := by
  have hfreed := h.clearFreed env.budget
  unfold Vm.gemVaUpdateVm at hr
  dsimp only at hr
  split_ifs at hr with hready hok
  · cases hr
    exact h
  · obtain ⟨r, hup, rfl⟩ := Option.map_eq_some_iff.mp hr
    simp only [Bool.and_eq_true] at hok
    exact hfreed.update henv (vmClearFreed_freed hok.1) hup
  · cases hr
    exact hfreed

/-- What a `GEM_VA` operation that returns 0 does. -/
inductive VaEffect (env : IoctlEnv) (req : VaRequest) (va : ℕ) (k : Key) (s : State) : State → Prop
  | map : req.operation = vaOpMap → mapParamsOk s k va req.offsetInBo req.mapSize = true →
      vmAllocPts env.allocLevels va req.mapSize = .ok () →
      vmItIter s.va (va / gpuPageSize) (lastByte va req.mapSize / gpuPageSize) = [] →
      VaEffect env req va k s (vmBoInsertMap s
        (requested k va req.offsetInBo req.mapSize (getVmPteFlags req.flags)))
  | unmap : req.operation = vaOpUnmap → VaEffect env req va k s (vmBoUnmap s k va).2
  | clear : req.operation = vaOpClear → env.beforeOk = true → env.afterOk = true →
      VaEffect env req va k s
        (clearRange s (va / gpuPageSize) (lastByte va req.mapSize / gpuPageSize))
  | replaceMap : req.operation = vaOpReplace →
      mapParamsOk s k va req.offsetInBo req.mapSize = true →
      vmAllocPts env.allocLevels va req.mapSize = .ok () → env.mappingOk = true →
      env.beforeOk = true → env.afterOk = true →
      VaEffect env req va k s (vmBoInsertMap
        (clearRange s (va / gpuPageSize) (lastByte va req.mapSize / gpuPageSize))
        (requested k va req.offsetInBo req.mapSize (getVmPteFlags req.flags)))

theorem vaAddressOk_operation {va : ℕ} (h : vaAddressOk req = .ok va) :
    req.operation = vaOpMap ∨ req.operation = vaOpUnmap ∨ req.operation = vaOpClear ∨
      req.operation = vaOpReplace := by
  unfold vaAddressOk at h
  split_ifs at h with h₁ h₂ h₃ h₄
  exact h₄

theorem vmBoUnmap_error {k : Key} {saddr : ℕ} {e : Errno} {s₁ : State}
    (h : vmBoUnmap s k saddr = (.error e, s₁)) : s₁ = s := by
  unfold vmBoUnmap at h
  cases hb : s.boVas k with
  | none =>
    rw [hb] at h
    cases h
    rfl
  | some b =>
    simp only [hb] at h
    split at h
    · cases h
    · split at h
      · cases h
      · cases h
        rfl

/-- An operation fails and changes nothing, or it has its effect. -/
theorem vaOperation_cases (env : IoctlEnv) (k : Key) (s : State) {va : ℕ}
    (hop : vaAddressOk req = .ok va) :
    (∃ e, vaOperation env req va k s = (.error e, s)) ∨
      ∃ s₁, vaOperation env req va k s = (.ok (), s₁) ∧ VaEffect env req va k s s₁ := by
  rcases vaAddressOk_operation hop with hmap | hunmap | hclear | hreplace
  · simp only [vaOperation, hmap, if_true]
    cases hpts : vmAllocPts env.allocLevels va req.mapSize with
    | error e => exact .inl ⟨e, rfl⟩
    | ok u =>
      dsimp only
      unfold vmBoMap
      dsimp only
      split_ifs with hok hov halloc
      · exact .inl ⟨_, rfl⟩
      · exact .inl ⟨_, rfl⟩
      · exact .inl ⟨_, rfl⟩
      · exact .inr ⟨_, rfl, .map hmap (by simpa using hok) hpts (by simpa [requested] using hov)⟩
  · have hne : ¬ vaOpUnmap = vaOpMap := by decide
    simp only [vaOperation, hunmap, if_neg hne, if_true]
    cases hr : vmBoUnmap s k va with
    | mk r s₁ =>
      cases r with
      | error e =>
        rw [vmBoUnmap_error hr]
        exact .inl ⟨e, rfl⟩
      | ok u =>
        have heff : VaEffect env req va k s (vmBoUnmap s k va).2 := .unmap hunmap
        rw [hr] at heff
        exact .inr ⟨s₁, rfl, heff⟩
  · have hne₁ : ¬ vaOpClear = vaOpMap := by decide
    have hne₂ : ¬ vaOpClear = vaOpUnmap := by decide
    simp only [vaOperation, hclear, if_neg hne₁, if_neg hne₂, if_true, vmBoClearMappings]
    split_ifs with hok
    · exact .inl ⟨_, rfl⟩
    · simp only [Bool.not_eq_true, Bool.not_eq_false', Bool.and_eq_true] at hok
      exact .inr ⟨_, rfl, .clear hclear hok.1 hok.2⟩
  · have hne₁ : ¬ vaOpReplace = vaOpMap := by decide
    have hne₂ : ¬ vaOpReplace = vaOpUnmap := by decide
    have hne₃ : ¬ vaOpReplace = vaOpClear := by decide
    simp only [vaOperation, hreplace, if_neg hne₁, if_neg hne₂, if_neg hne₃]
    cases hpts : vmAllocPts env.allocLevels va req.mapSize with
    | error e => exact .inl ⟨e, rfl⟩
    | ok u =>
      dsimp only
      unfold vmBoReplaceMap vmBoClearMappings
      split_ifs with hok halloc hmem
      · exact .inl ⟨_, rfl⟩
      · exact .inl ⟨_, rfl⟩
      · exact .inl ⟨_, rfl⟩
      · simp only [Bool.not_eq_true, Bool.not_eq_false', Bool.and_eq_true] at hmem
        exact .inr ⟨_, rfl, .replaceMap hreplace (by simpa using hok) hpts
          (by simpa using halloc) hmem.1 hmem.2⟩

/-- The ioctl fails and changes nothing, or its operation has its effect and at most the page
tables are updated after that. -/
theorem gemVaIoctl_effect {r : Except Errno Unit} (h : gemVaIoctl env req s = some (r, s')) :
    ((∃ e, r = .error e) ∧ s' = s) ∨ ∃ va k s₁, vaAddressOk req = .ok va ∧
      vaKey env req s = .ok k ∧ VaEffect env req va k s s₁ ∧ r = .ok () ∧
      (s' = s₁ ∨ gemVaUpdateVm env s₁ k req.operation = some s') := by
  unfold gemVaIoctl at h
  cases hva : vaAddressOk req with
  | error e =>
    rw [hva] at h
    cases h
    exact .inl ⟨⟨e, rfl⟩, rfl⟩
  | ok va =>
    cases hk : vaKey env req s with
    | error e =>
      simp only [hva, hk] at h
      cases h
      exact .inl ⟨⟨e, rfl⟩, rfl⟩
    | ok k =>
      simp only [hva, hk] at h
      rcases vaOperation_cases env k s hva with ⟨e, hop⟩ | ⟨s₁, hop, heff⟩
      · simp only [hop] at h
        cases h
        exact .inl ⟨⟨e, rfl⟩, rfl⟩
      · simp only [hop] at h
        refine .inr ⟨va, k, s₁, rfl, rfl, heff, ?_⟩
        split_ifs at h
        · obtain ⟨s₂, hs₂, heq⟩ := Option.map_eq_some_iff.mp h
          cases heq
          exact ⟨rfl, .inr hs₂⟩
        · cases h
          exact ⟨rfl, .inl rfl⟩

/-- The request clears a range, or replaces what is mapped in it, and some mapping goes on after
its end. -/
def CutsTail (env : IoctlEnv) (req : VaRequest) (s : State) : Prop :=
  env.beforeOk = true ∧ env.afterOk = true ∧ ∃ va k, vaAddressOk req = .ok va ∧
    vaKey env req s = .ok k ∧ (req.operation = vaOpClear ∨ (req.operation = vaOpReplace ∧
      mapParamsOk s k va req.offsetInBo req.mapSize = true ∧
      vmAllocPts env.allocLevels va req.mapSize = .ok () ∧ env.mappingOk = true)) ∧
    ¬ NoTail s (va / gpuPageSize) (lastByte va req.mapSize / gpuPageSize)

section Effect
variable {va : ℕ} {k : Key} {s₁ : State}

/-- The range of an effect that clears one. -/
theorem noTail_of_not_cutsTail (hw : ¬ CutsTail env req s) (hva : vaAddressOk req = .ok va)
    (hk : vaKey env req s = .ok k) (hb : env.beforeOk = true) (ha : env.afterOk = true)
    (hop : req.operation = vaOpClear ∨ (req.operation = vaOpReplace ∧
      mapParamsOk s k va req.offsetInBo req.mapSize = true ∧
      vmAllocPts env.allocLevels va req.mapSize = .ok () ∧ env.mappingOk = true)) :
    NoTail s (va / gpuPageSize) (lastByte va req.mapSize / gpuPageSize) := by
  by_contra hno
  exact hw ⟨hb, ha, va, k, hva, hk, hop, hno⟩

theorem InStep.effect (h : InStep s) (hva : vaAddressOk req = .ok va)
    (hk : vaKey env req s = .ok k) (hw : ¬ CutsTail env req s)
    (heff : VaEffect env req va k s s₁) : InStep s₁ := by
  have hlive := vaKey_live h.orderly hk
  cases heff with
  | map hop hok hpts hfree =>
    apply h.insertMap req.offsetInBo_lt (requested_bounds hok (vmAllocPts_lt hpts)) _ hlive
    intro m hm hov
    have hmem : m ∈ vmItIter s.va (va / gpuPageSize) (lastByte va req.mapSize / gpuPageSize) :=
      mem_vmItIter.mpr ⟨hm, hov⟩
    rw [hfree] at hmem
    cases hmem
  | unmap hop => exact h.unmap k va
  | clear hop hb ha => exact h.clearRange (noTail_of_not_cutsTail hw hva hk hb ha (.inl hop))
  | replaceMap hop hok hpts halloc hb ha =>
    have ht := noTail_of_not_cutsTail hw hva hk hb ha (.inr ⟨hop, hok, hpts, halloc⟩)
    apply (h.clearRange ht).insertMap req.offsetInBo_lt
      (requested_bounds hok (vmAllocPts_lt hpts)) _ (clearRange_ne_none hlive)
    exact h.synced.tidy.clearRange_free

theorem InStep.gemVaIoctl {r : Except Errno Unit} (h : InStep s)
    (hr : gemVaIoctl env req s = some (r, s')) (henv : env.update.Bounded)
    (hw : ¬ CutsTail env req s) : InStep s' := by
  rcases gemVaIoctl_effect hr with ⟨-, rfl⟩ | ⟨va, k, s₁, hva, hk, heff, -, rfl | hup⟩
  · exact h
  · exact h.effect hva hk hw heff
  · exact (h.effect hva hk hw heff).gemVaUpdateVm henv hup

end Effect

theorem InStep.gemObjectOpen (h : InStep s) (addOk : Bool) (b : ℕ) :
    InStep (gemObjectOpen addOk s b) := by
  unfold Vm.gemObjectOpen
  cases hb : s.boVas (some b) with
  | some bv => exact h.setRefCount hb (bv.refCount + 1)
  | none =>
    dsimp only
    split_ifs
    · exact h.add hb
    · exact h

theorem InStep.gemObjectClose (h : InStep s) (reserveOk ptsReady : Bool) (budget b : ℕ) :
    InStep (gemObjectClose reserveOk ptsReady budget s b) := by
  unfold Vm.gemObjectClose
  split_ifs
  · exact h
  · cases hb : s.boVas (some b) with
    | none => exact h
    | some bv =>
      dsimp only
      split_ifs
      · exact (h.rmv b).clearFreed budget
      · exact h.rmv b
      · exact h.setRefCount hb (bv.refCount - 1)

end Ioctl

end Gsgpu.Vm
