import Gsgpu.Vm.InStep

/-! Every submission sees current translations: the `vm_status` lists, through all that can happen
to a VM, lead a submission to every mapping that it has to write. -/
namespace Gsgpu.Vm

section Validate
variable {s : State}

/-- The root directory's reservation object is held, so that no BO that shares it is evicted. -/
def HoldsRoot (s : State) (moves : List Move) : Prop :=
  ∀ m ∈ moves, m.evicted = true → s.perVm (some m.bo) = false

theorem boMove_perVm (s : State) (b : ℕ) (evicted : Bool) (mem : Mem) (k : Key) :
    (boMove s b evicted mem).perVm k = s.perVm k := by
  have hbos : (boMove s b evicted mem).bos =
      Function.update s.bos b { s.bos b with mem := mem } := by
    simp only [boMove, vmBoInvalidate_bos]
  exact perVm_of_update hbos rfl k

/-- A move that does not evict a per-VM BO puts nothing on the evicted list. -/
theorem boMove_evicted {b : ℕ} {evicted : Bool} {mem : Mem}
    (h : evicted = true → s.perVm (some b) = false) {k : Key}
    (hk : k ∈ (boMove s b evicted mem).status.evicted) : k ∈ s.status.evicted := by
  unfold boMove at hk
  cases hb : s.boVas (some b) with
  | none => simpa [vmBoInvalidate, hb] using hk
  | some bv =>
    rw [InStep.vmBoInvalidate_eq hb] at hk
    simp only [InStep.invalidateStatus] at hk
    have hno : (evicted && (s.bos b).perVm) = false := by
      cases hev : evicted with
      | false => rfl
      | true => simpa [State.perVm] using h hev
    simp only [hno, Bool.false_eq_true, if_false] at hk
    split_ifs at hk
    · exact hk
    · exact List.mem_of_mem_erase hk

theorem InStep.moveAll (h : InStep s) {moves : List Move} (hroot : HoldsRoot s moves) :
    InStep (moveAll moves s) ∧ (∀ k, (moveAll moves s).perVm k = s.perVm k) ∧
      ∀ k ∈ (moveAll moves s).status.evicted, k ∈ s.status.evicted := by
  induction moves generalizing s with
  | nil => exact ⟨h, fun _ => rfl, fun _ hk => hk⟩
  | cons m ms ih =>
    have hper := boMove_perVm s m.bo m.evicted m.mem
    have hroot' : HoldsRoot (Vm.boMove s m.bo m.evicted m.mem) ms := by
      intro m' hm' hev
      rw [hper]
      exact hroot m' (by simp [hm']) hev
    obtain ⟨hstep, hperAll, hevAll⟩ := ih (h.boMove m.bo m.evicted m.mem) hroot'
    refine ⟨hstep, fun k => (hperAll k).trans (hper k), fun k hk => ?_⟩
    exact boMove_evicted (hroot m (by simp)) (hevAll k hk)

theorem InStep.requeue (h : InStep s) (k : Key) :
    InStep { s with status := s.status.moveToMoved k } := by
  constructor
  · have hmono := h.synced.mono fun k' _ hk' => Status.queued_moveToMoved hk' k
    exact hmono.of_eq rfl rfl rfl rfl rfl
  · exact Status.nodup_moveToMoved h.nodup k
  · exact h.prt

/-- When the validation gets to the end, no per-VM BO is evicted. -/
theorem InStep.validateLoop (h : InStep s) {validate : ℕ → List Move × Bool} (ks : List Key)
    (hroot : ∀ b, HoldsRoot s (validate b).1)
    (hks : ∀ k ∈ s.status.evicted, s.perVm k = true → k ∈ ks) :
    InStep (validateLoop validate ks s).2 ∧
      (∀ k, (validateLoop validate ks s).2.perVm k = s.perVm k) ∧
      ((validateLoop validate ks s).1 = true →
        ∀ k ∈ (validateLoop validate ks s).2.status.evicted, s.perVm k = false) := by
  induction ks generalizing s with
  | nil =>
    refine ⟨h, fun _ => rfl, fun _ k hk => ?_⟩
    by_contra hper
    exact absurd (hks k hk (by simpa using hper)) (by simp)
  | cons k ks ih =>
    cases k with
    | none =>
      apply ih h hroot
      intro k hk hper
      rcases List.mem_cons.mp (hks k hk hper) with rfl | hk
      · cases hper
      · exact hk
    | some b =>
      obtain ⟨hmoved, hper, hev⟩ := h.moveAll (hroot b)
      unfold Vm.validateLoop
      dsimp only
      split_ifs with hok
      · generalize Vm.moveAll (validate b).1 s = s₁ at hmoved hper hev ⊢
        have hks' : ∀ k ∈ (s₁.status.moveToMoved (some b)).evicted,
            s₁.perVm k = true → k ∈ ks := by
          intro k hk hk'
          have hold := hev k (List.mem_of_mem_erase hk)
          rcases List.mem_cons.mp (hks k hold ((hper k).symm.trans hk')) with rfl | hin
          · have hunlinked := Status.not_mem_unlink hmoved.nodup (some b)
            have hmem : some b ∈ (s₁.status.unlink (some b)).evicted := hk
            exact absurd (by simp [Status.all, hmem]) hunlinked
          · exact hin
        have hroot' : ∀ b', HoldsRoot { s₁ with status := s₁.status.moveToMoved (some b) }
            (validate b').1 := by
          intro b' m hm hevict
          exact (hper (some m.bo)).trans (hroot b' m hm hevict)
        obtain ⟨hstep, hperAll, hend⟩ := ih (hmoved.requeue (some b)) hroot' hks'
        refine ⟨hstep, fun k => (hperAll k).trans (hper k), fun hok' k hk => ?_⟩
        exact (hper k).symm.trans (hend hok' k hk)
      · exact ⟨hmoved, hper, fun hc => by cases hc⟩

end Validate

/-- What holds while a submission writes entries: `pending` are the `bo_va`s that
`gsgpu_vm_handle_moved` still comes to, and what is `done` is settled and stays so. -/
structure Writing (pending : List Key) (done : Key → Prop) (s : State) : Prop where
  synced : Synced (fun k => k ∈ pending) s
  freed : s.freed = []
  prt : s.boVas none ≠ none
  settled : ∀ m ∈ s.va, done m.boVa → m.boVa ∉ pending ∧ Settled s m

namespace Writing
variable {pending : List Key} {done : Key → Prop} {env : UpdateEnv} {s : State} {k : Key}
  {clear : Bool} {budget : ℕ} {r : Result State}

theorem update (h : Writing pending done s) (henv : env.Bounded)
    (hclear : clear = true → s.perVm k = false ∧ k ∈ pending)
    (hr : vmBoUpdate env s k clear budget = some r) : Writing pending done r.val := by
  have hsame := sameLists_vmBoUpdate hr
  constructor
  · exact h.synced.update henv h.freed (fun hc => (hclear hc).1) hr
  · rw [vmBoUpdate_freed hr, h.freed]
  · exact hsame.live none h.prt
  · rw [hsame.va]
    intro m hm hdone
    obtain ⟨hnot, hset⟩ := h.settled m hm hdone
    refine ⟨hnot, h.synced.settled_update henv hr hm ?_ hset⟩
    intro hk
    cases clear with
    | false => rfl
    | true => exact absurd (hk ▸ (hclear rfl).2) hnot

/-- An update that gets to the end takes its `bo_va` off what is pending. -/
theorem update_ok (h : Writing pending done s) (henv : env.Bounded) (hnd : pending.Nodup)
    (hclear : clear = true → s.perVm k = false ∧ k ∈ pending)
    (hr : vmBoUpdate env s k clear budget = some r) (hok : r.ok = true) :
    Writing (pending.erase k) (fun k' => done k' ∨ (k' = k ∧ clear = false)) r.val := by
  have hall := h.update henv hclear hr
  have hsame := sameLists_vmBoUpdate hr
  have hper := perVm_congr (vmBoUpdate_bos hr)
  constructor
  · cases hcl : clear with
    | false =>
      subst hcl
      exact (h.synced.update_ok henv h.freed hr hok).mono
        fun k' _ hk' => (List.mem_erase_of_ne hk'.2).mpr hk'.1
    | true =>
      apply hall.synced.mono
      intro k' hk' hmem
      have hne : k' ≠ k := by
        rintro rfl
        rw [hper, (hclear hcl).1] at hk'
        cases hk'
      exact (List.mem_erase_of_ne hne).mpr hmem
  · exact hall.freed
  · exact hall.prt
  · intro m hm hdone
    rcases hdone with hdone | ⟨hk, hcl⟩
    · obtain ⟨hnot, hset⟩ := hall.settled m hm hdone
      exact ⟨fun hmem => hnot (List.mem_of_mem_erase hmem), hset⟩
    · subst hcl
      rw [hsame.va] at hm
      refine ⟨?_, h.synced.settled_of_update henv h.freed hr hok hm hk⟩
      rw [hk]
      exact hnd.not_mem_erase

theorem weaken {done' : Key → Prop} (h : Writing pending done s) (hd : ∀ k, done' k → done k) :
    Writing pending done' s :=
  ⟨h.synced, h.freed, h.prt, fun m hm hm' => h.settled m hm (hd m.boVa hm')⟩

/-- What is queued is queued. -/
theorem inStep (h : Writing s.status.moved done s) (hnd : s.status.all.Nodup) : InStep s :=
  ⟨h.synced.mono fun _ _ hk => .inl hk, hnd, h.prt⟩

end Writing

theorem statusAfterUpdate_moved (s : State) (k : Key) :
    (statusAfterUpdate s k).moved = s.status.moved.erase k := by
  unfold statusAfterUpdate
  dsimp only
  split
  · rfl
  · split_ifs <;> rfl

theorem Status.moved_nodup {st : Status} (h : st.all.Nodup) : st.moved.Nodup := by
  unfold Status.all at h
  exact (List.nodup_append.mp (List.nodup_append.mp h).1).2.1

section Lists
variable {env : SubmitEnv} {budget : ℕ} {s : State} {r : Result State} {done : Key → Prop}

/-- The update of one buffer, while the moved list is still with the VM. -/
theorem Writing.listed (h : Writing s.status.moved done s) (hnd : s.status.all.Nodup)
    {env : UpdateEnv} (henv : env.Bounded) {k : Key}
    (hr : vmBoUpdate env s k false budget = some r) :
    Writing r.val.status.moved done r.val ∧ r.val.status.all.Nodup ∧
      (r.ok = true → Writing r.val.status.moved (fun k' => done k' ∨ k' = k) r.val) := by
  have hkeep := h.update henv (fun hc => by cases hc) hr
  cases hb : s.boVas k with
  | none =>
    rw [vmBoUpdate_of_none hb hr] at hkeep ⊢
    refine ⟨hkeep, hnd, fun _ => ⟨hkeep.synced, hkeep.freed, hkeep.prt, ?_⟩⟩
    intro m hm hdone
    rcases hdone with hdone | hk
    · exact hkeep.settled m hm hdone
    · -- no `bo_va`, no mapping
      obtain ⟨bv, hbv, -⟩ := h.synced.tidy.listed.live hm
      rw [hk, hb] at hbv
      cases hbv
  | some bv =>
    have hst := InStep.vmBoUpdate_status hb hr
    cases hok : r.ok with
    | false =>
      rw [hok, if_neg Bool.false_ne_true] at hst
      rw [hst]
      exact ⟨hkeep, hnd, fun hc => by cases hc⟩
    | true =>
      rw [hok, if_pos rfl] at hst
      have hall := h.update_ok henv (Status.moved_nodup hnd) (fun hc => by cases hc) hr hok
      rw [← statusAfterUpdate_moved, ← hst] at hall
      have hdone : Writing r.val.status.moved (fun k' => done k' ∨ k' = k) r.val :=
        hall.weaken fun k' hk' => hk'.imp_right fun hk => ⟨hk, rfl⟩
      refine ⟨hdone.weaken fun _ hk' => .inl hk', ?_, fun _ => hdone⟩
      rw [hst]
      exact Status.nodup_statusAfterUpdate hnd k

theorem updateListLoop_bos {bs : List ℕ} {i : ℕ} (hr : updateListLoop env i bs budget s = some r) :
    r.val.bos = s.bos := by
  induction bs generalizing i budget s with
  | nil =>
    cases hr
    rfl
  | cons b bs ih =>
    unfold updateListLoop at hr
    split at hr
    · cases hr
    · rename_i hr₁
      cases hr
      exact vmBoUpdate_bos hr₁
    · rename_i hr₁
      have hbos := vmBoUpdate_bos hr₁
      split at hr
      · exact (ih hr).trans hbos
      · cases hr
        exact hbos

theorem handleMovedLoop_bos {env : UpdateEnv} {trylock : Key → Bool} {ks : List Key}
    (hr : handleMovedLoop env trylock ks budget s = some r) : r.val.bos = s.bos := by
  induction ks generalizing budget s with
  | nil =>
    cases hr
    rfl
  | cons k ks ih =>
    unfold handleMovedLoop at hr
    dsimp only at hr
    split at hr
    · cases hr
    · rename_i hr₁
      have hbos := vmBoUpdate_bos hr₁
      cases hr
      exact hbos
    · rename_i hr₁
      exact (ih hr).trans (vmBoUpdate_bos hr₁)

theorem vmHandleMoved_bos {env : UpdateEnv} {trylock : Key → Bool}
    (hr : vmHandleMoved env trylock s budget = some r) : r.val.bos = s.bos := by
  unfold vmHandleMoved at hr
  rw [handleMovedLoop_bos hr]

/-- The loop over the buffer list. -/
theorem Writing.updateListLoop (henv : env.update.Bounded) {bs : List ℕ} {i : ℕ}
    (h : Writing s.status.moved done s) (hnd : s.status.all.Nodup)
    (hr : updateListLoop env i bs budget s = some r) :
    Writing r.val.status.moved done r.val ∧ r.val.status.all.Nodup ∧
      (r.ok = true →
        Writing r.val.status.moved (fun k => done k ∨ ∃ b ∈ bs, k = some b) r.val) := by
  induction bs generalizing i budget s done with
  | nil =>
    cases hr
    exact ⟨h, hnd, fun _ => h.weaken fun k hk => by simpa using hk⟩
  | cons b bs ih =>
    unfold Vm.updateListLoop at hr
    split at hr
    · cases hr
    · rename_i hr₁
      cases hr
      obtain ⟨hkeep, hnd', -⟩ := h.listed hnd henv hr₁
      exact ⟨hkeep, hnd', fun hc => by cases hc⟩
    · rename_i hr₁
      obtain ⟨hkeep, hnd', hok⟩ := h.listed hnd henv hr₁
      split at hr
      · obtain ⟨hend, hndEnd, hokEnd⟩ := ih (hok rfl) hnd' hr
        refine ⟨hend.weaken fun _ hk => .inl hk, hndEnd, fun hc => (hokEnd hc).weaken ?_⟩
        rintro k (hk | ⟨b', hb', hk⟩)
        · exact .inl (.inl hk)
        · rcases List.mem_cons.mp hb' with rfl | hb'
          · exact .inl (.inr hk)
          · exact .inr ⟨b', hb', hk⟩
      · cases hr
        exact ⟨hkeep, hnd', fun hc => by cases hc⟩

/-- The loop over the moved list, which the VM does not have meanwhile. -/
theorem Writing.handleMovedLoop {env : UpdateEnv} (henv : env.Bounded) {trylock : Key → Bool}
    {ks : List Key} (h : Writing ks done s) (hmoved : s.status.moved = [])
    (hnd : (ks ++ s.status.all).Nodup)
    (hr : handleMovedLoop env trylock ks budget s = some r) :
    InStep r.val ∧ (r.ok = true → Writing [] done r.val) := by
  induction ks generalizing budget s done with
  | nil =>
    cases hr
    have hstep : InStep s := ⟨h.synced.mono fun _ _ hk => by simp at hk, hnd, h.prt⟩
    exact ⟨hstep, fun _ => h⟩
  | cons k ks ih =>
    have hclear : (!s.perVm k && !trylock k) = true → s.perVm k = false ∧ k ∈ k :: ks := by
      intro hc
      simp only [Bool.and_eq_true, Bool.not_eq_true'] at hc
      exact ⟨hc.1, by simp⟩
    have hks : (k :: ks).Nodup := (List.nodup_append.mp hnd).1
    unfold Vm.handleMovedLoop at hr
    dsimp only at hr
    split at hr
    · cases hr
    · rename_i budget' s₁ hr₁
      cases hr
      have hkeep := h.update henv hclear hr₁
      -- a failed update leaves the lists alone, so all that is pending fits back
      have hst : s₁.status = s.status := by
        cases hb : s.boVas k with
        | none =>
          have hnone := vmBoUpdate_of_none hb hr₁
          cases hnone
        | some b => exact InStep.vmBoUpdate_status hb hr₁
      constructor
      · constructor
        · have hmono : Synced ({ s₁.status with moved := (k :: ks) ++ s₁.status.moved } :
              Status).Queued s₁ :=
            hkeep.synced.mono fun k' _ hk' => .inl (List.mem_append_left _ hk')
          exact hmono.of_eq rfl rfl rfl rfl rfl
        · have hperm : ({ s₁.status with moved := (k :: ks) ++ s₁.status.moved } :
              Status).all.Perm ((k :: ks) ++ s₁.status.all) := by
            unfold Status.all
            simp only [List.append_assoc]
            apply ((List.perm_append_comm_assoc s₁.status.relocated _ _).append_left _).trans
            exact List.perm_append_comm_assoc s₁.status.evicted _ _
          rw [hst] at hperm ⊢
          exact hperm.nodup_iff.mpr hnd
        · exact hkeep.prt
      · exact fun hc => by cases hc
    · rename_i budget' s₁ hr₁
      have hall := h.update_ok henv hks hclear hr₁ rfl
      rw [List.erase_cons_head] at hall
      have hnext : Writing ks done s₁ := hall.weaken fun _ hk' => .inl hk'
      cases hb : s.boVas k with
      | none =>
        have hnone := vmBoUpdate_of_none hb hr₁
        cases hnone
        apply ih hnext hmoved _ hr
        exact hnd.sublist ((List.sublist_cons_self k ks).append_right _)
      | some b =>
        have hst : s₁.status = statusAfterUpdate s k := InStep.vmBoUpdate_status hb hr₁
        apply ih hnext _ _ hr
        · rw [hst, statusAfterUpdate_moved, hmoved]
          rfl
        · rw [hst]
          exact Status.nodup_append_statusAfterUpdate hnd

theorem Writing.handleMoved {env : UpdateEnv} (henv : env.Bounded) {trylock : Key → Bool}
    (h : Writing s.status.moved done s) (hnd : s.status.all.Nodup)
    (hr : vmHandleMoved env trylock s budget = some r) :
    InStep r.val ∧ (r.ok = true → Writing [] done r.val) := by
  have hsplice : Writing s.status.moved done { s with status := { s.status with moved := [] } } :=
    ⟨h.synced.of_eq rfl rfl rfl rfl rfl, h.freed, h.prt, h.settled⟩
  have hperm : (s.status.moved ++ ({ s.status with moved := [] } : Status).all).Perm
      s.status.all := by
    unfold Status.all
    simp only [List.append_nil, List.append_assoc]
    apply (List.perm_append_comm_assoc s.status.moved _ _).trans
    exact (List.perm_append_comm_assoc s.status.moved _ _).append_left _
  exact hsplice.handleMovedLoop henv rfl (hperm.nodup_iff.mpr hnd) hr

/-- The mappings of a BO show its current backing. -/
def UpToDate (s : State) (b : ℕ) : Prop :=
  ∀ m ∈ s.va, m.boVa = some b → ∀ p, m.Covers p →
    Current (some (s.bos b)) (m.offsetAt p) (s.pte p)

theorem invalidateAll_spec (h : InStep s) (bs : List ℕ) :
    InStep (bs.foldl (fun s b => vmBoInvalidate s b false) s) ∧
      (bs.foldl (fun s b => vmBoInvalidate s b false) s).bos = s.bos ∧
      (bs.foldl (fun s b => vmBoInvalidate s b false) s).pte = s.pte := by
  induction bs generalizing s with
  | nil => exact ⟨h, rfl, rfl⟩
  | cons b bs ih =>
    obtain ⟨hstep, hbos, hpte⟩ := ih (h.invalidate b false)
    refine ⟨hstep, hbos.trans (vmBoInvalidate_bos s b false), ?_⟩
    exact hpte.trans (vmBoInvalidate_pte s b false)

/-- The end of an update in which nothing is pending any more. -/
theorem Writing.updateEnd (env : SubmitEnv) (h : Writing [] done s) (hstep : InStep s) :
    InStep (updateEnd env s).2 ∧ (updateEnd env s).2.bos = s.bos ∧
      ∀ b, s.perVm (some b) = true ∨ done (some b) → UpToDate (updateEnd env s).2 b := by
  have hsettled : ∀ b, s.perVm (some b) = true ∨ done (some b) → UpToDate s b := by
    intro b hb m hm hk p hp
    have hset : Settled s m := by
      rcases hb with hper | hdone
      · exact h.synced.settled (some b) hper (by simp) m hm hk
      · exact (h.settled m hm (hk ▸ hdone)).2
    have hcur := (hset p hp).1
    rw [hk] at hcur
    exact hcur
  have hva := (sameLists_updateEnd env s).va
  obtain ⟨hinv, hbos, hpte⟩ := invalidateAll_spec hstep env.boList
  have hfields : (Vm.updateEnd env s).2.bos = s.bos ∧ (Vm.updateEnd env s).2.pte = s.pte := by
    unfold Vm.updateEnd
    split_ifs
    · exact ⟨hbos, hpte⟩
    · exact ⟨rfl, rfl⟩
    · exact ⟨rfl, rfl⟩
  have hend : InStep (Vm.updateEnd env s).2 := by
    unfold Vm.updateEnd
    split_ifs
    · exact hinv
    · exact hstep
    · exact hstep
  refine ⟨hend, hfields.1, fun b hb => ?_⟩
  unfold UpToDate
  rw [hva, hfields.1, hfields.2]
  exact hsettled b hb

/-- `gsgpu_bo_vm_update_pte`, from a state in which no per-VM BO is evicted. -/
theorem InStep.boVmUpdatePte (h : InStep s) (henv : env.update.Bounded)
    (hev : ∀ k ∈ s.status.evicted, s.perVm k = false) {ok : Bool} {s' : State}
    (hr : boVmUpdatePte env s = some (ok, s')) :
    InStep s' ∧ (ok = true → (∀ k, s'.perVm k = s.perVm k) ∧
      ∀ b, s.perVm (some b) = true ∨ b ∈ env.boList → UpToDate s' b) := by
  have hfreed := h.clearFreed env.budget
  have hfailed : ∀ {t : State}, InStep t → InStep t ∧ (false = true →
      (∀ k, t.perVm k = s.perVm k) ∧
        ∀ b, s.perVm (some b) = true ∨ b ∈ env.boList → UpToDate t b) :=
    fun ht => ⟨ht, fun hc => by cases hc⟩
  unfold Vm.boVmUpdatePte at hr
  dsimp only at hr
  split at hr
  · cases hr
    exact hfailed hfreed
  · rename_i hcleared
    have hcleared : (vmClearFreed s env.budget).ok = true := by simpa using hcleared
    have hper₀ : ∀ k, (vmClearFreed s env.budget).val.perVm k = s.perVm k := perVm_congr rfl
    have hstart : Writing (vmClearFreed s env.budget).val.status.moved (fun _ => False)
        (vmClearFreed s env.budget).val := by
      refine ⟨hfreed.synced.mono ?_, vmClearFreed_freed hcleared, hfreed.prt, fun _ _ hf => hf.elim⟩
      rintro k hk (hm | he)
      · exact hm
      · rw [hper₀, hev k he] at hk
        cases hk
    split at hr
    · cases hr
    · rename_i hprt
      cases hr
      obtain ⟨hw, hnd, -⟩ := hstart.listed hfreed.nodup henv hprt
      exact hfailed (hw.inStep hnd)
    · rename_i hprt
      obtain ⟨hw, hnd, -⟩ := hstart.listed hfreed.nodup henv hprt
      have hper₁ := perVm_congr (vmBoUpdate_bos hprt)
      split at hr
      · cases hr
        exact hfailed (hw.inStep hnd)
      · split at hr
        · cases hr
        · rename_i hlist
          cases hr
          obtain ⟨hw, hnd, -⟩ := hw.updateListLoop henv hnd hlist
          exact hfailed (hw.inStep hnd)
        · rename_i hlist
          have hper₂ := perVm_congr (updateListLoop_bos hlist)
          obtain ⟨-, hnd, hok⟩ := hw.updateListLoop henv hnd hlist
          have hw := hok rfl
          split at hr
          · cases hr
          · rename_i hmoved
            cases hr
            exact hfailed (hw.handleMoved henv hnd hmoved).1
          · rename_i hmoved
            have hper₃ := perVm_congr (vmHandleMoved_bos hmoved)
            obtain ⟨hstep, hok⟩ := hw.handleMoved henv hnd hmoved
            obtain ⟨hend, hbos, hcur⟩ := (hok rfl).updateEnd env hstep
            rw [Option.some.inj hr] at hend hbos hcur
            have hper : ∀ k, s'.perVm k = s.perVm k := by
              intro k
              rw [perVm_congr hbos, hper₃, hper₂, hper₁, hper₀]
            refine ⟨hend, fun _ => ⟨hper, fun b hb => hcur b ?_⟩⟩
            rcases hb with hb | hb
            · left
              rw [hper₃, hper₂, hper₁, hper₀]
              exact hb
            · exact .inr (.inr ⟨b, hb, rfl⟩)

theorem InStep.submit (h : InStep s) (henv : env.update.Bounded)
    (hroot : (∀ b, HoldsRoot s (env.validate b).1) ∧ HoldsRoot s env.moves) {ok : Bool}
    {s' : State} (hr : submit env s = some (ok, s')) :
    InStep s' ∧ (ok = true → ∀ b, s'.perVm (some b) = true ∨ b ∈ env.boList → UpToDate s' b) := by
  obtain ⟨hval, hper, hev⟩ := h.validateLoop s.status.evicted hroot.1 fun _ hk _ => hk
  unfold Vm.submit vmValidatePtBos at hr
  split at hr
  · rename_i hv
    rw [hv] at hval
    cases hr
    exact ⟨hval, fun hc => by cases hc⟩
  · rename_i hv
    rw [hv] at hval hper hev
    have hroot' : HoldsRoot _ env.moves := fun m hm hevict =>
      (hper (some m.bo)).trans (hroot.2 m hm hevict)
    obtain ⟨hmoves, hper', hev'⟩ := hval.moveAll hroot'
    obtain ⟨hstep, hcur⟩ := hmoves.boVmUpdatePte henv
      (fun k hk => ((hper' k).trans (hper k)).trans (hev rfl k (hev' k hk))) hr
    refine ⟨hstep, fun hok b hb => (hcur hok).2 b ?_⟩
    rwa [← (hcur hok).1]


end Lists

/-- A VM, and what the user has mapped at each page frame number: the `bo_va` and the byte offset
of the last map or replace there that returned 0. -/
structure View where
  vm : State
  user : ℕ → Option (Key × ℕ)

/-- What the user has mapped after a `GEM_VA` request that returned `r`. -/
def userAfter (env : IoctlEnv) (req : VaRequest) (s : State) (r : Except Errno Unit)
    (user : ℕ → Option (Key × ℕ)) : ℕ → Option (Key × ℕ) :=
  match r, vaAddressOk req, vaKey env req s with
  | .ok (), .ok va, .ok k =>
    if req.operation = vaOpMap ∨ req.operation = vaOpReplace then fun p =>
      let m := requested k va req.offsetInBo req.mapSize (getVmPteFlags req.flags)
      if m.Covers p then some (k, m.offsetAt p) else user p
    else user
  | _, _, _ => user

/-- One event, seen by the user as well. -/
def View.step (v : View) (e : Event) (v' : View) : Prop :=
  match e with
  | .ioctl env req => ∃ r, gemVaIoctl env req v.vm = some (r, v'.vm) ∧
      v'.user = userAfter env req v.vm r v.user
  | e => Vm.step v.vm e v'.vm ∧ v'.user = v.user

/-- The mappings show what the user mapped. -/
def Placed (v : View) : Prop :=
  ∀ m ∈ v.vm.va, ∀ p, m.Covers p → v.user p = some (m.boVa, m.offsetAt p)

theorem Mapping.FrontOf.offsetAt {m t : Mapping} (h : m.FrontOf t) (p : ℕ) :
    m.offsetAt p = t.offsetAt p := by
  unfold Mapping.offsetAt
  rw [h.2.1, h.2.2.1]

theorem Mapping.FrontOf.covers {m t : Mapping} (h : m.FrontOf t) {p : ℕ} (hp : m.Covers p) :
    t.Covers p := by
  obtain ⟨-, -, hstart, hlast⟩ := h
  unfold Mapping.Covers at *
  omega

section Placed
variable {v : View} {s : State}

/-- What is left of the mappings shows what it showed. -/
theorem Placed.fronts (h : Placed v) (hs : ∀ m ∈ s.va, ∃ t ∈ v.vm.va, m.FrontOf t) :
    Placed ⟨s, v.user⟩ := by
  intro m hm p hp
  obtain ⟨t, ht, hfront⟩ := hs m hm
  rw [hfront.1, hfront.offsetAt]
  exact h t ht p (hfront.covers hp)

theorem Placed.subset (h : Placed v) (hs : ∀ m ∈ s.va, m ∈ v.vm.va) : Placed ⟨s, v.user⟩ :=
  h.fronts fun m hm => ⟨m, hs m hm, .refl m⟩

/-- A new mapping, where there was none. -/
theorem Placed.insertMap (h : Placed v) {m : Mapping}
    (hfree : ∀ m' ∈ v.vm.va, ¬ m'.Overlaps m.start m.last) :
    Placed ⟨vmBoInsertMap v.vm m,
      fun p => if m.Covers p then some (m.boVa, m.offsetAt p) else v.user p⟩ := by
  intro m' hm' p hp
  rw [vmBoInsertMap_va, (vmItInsert_perm m v.vm.va).mem_iff] at hm'
  rcases List.mem_cons.mp hm' with rfl | hm'
  · exact if_pos hp
  · have hno : ¬ m.Covers p := by
      intro hcov
      apply hfree m' hm'
      unfold Mapping.Covers at hp hcov
      unfold Mapping.Overlaps
      omega
    dsimp only
    rw [if_neg hno]
    exact h m' hm' p hp

theorem vmBoUnmap_va_subset (s : State) (k : Key) (saddr : ℕ) :
    ∀ m ∈ (vmBoUnmap s k saddr).2.va, m ∈ s.va := by
  unfold vmBoUnmap
  cases s.boVas k with
  | none => exact fun _ hm => hm
  | some b =>
    dsimp only
    split
    · exact fun _ hm => List.mem_of_mem_erase hm
    · split
      · exact fun _ hm => List.mem_of_mem_erase hm
      · exact fun _ hm => hm

theorem vmBoRmv_va_subset {bound : ℕ} (h : Tidy bound s) (k : Key) :
    ∀ m ∈ (vmBoRmv s k).va, m ∈ s.va := by
  unfold vmBoRmv
  cases hb : s.boVas k with
  | none => exact fun _ hm => hm
  | some b =>
    dsimp only
    rw [h.foldl_erase_lists hb]
    exact fun m hm => List.mem_of_mem_filter hm

theorem gemObjectClose_va_subset {bound : ℕ} (h : Tidy bound s) (reserveOk ptsReady : Bool)
    (budget b : ℕ) : ∀ m ∈ (gemObjectClose reserveOk ptsReady budget s b).va, m ∈ s.va := by
  unfold gemObjectClose
  split_ifs
  · exact fun _ hm => hm
  · cases s.boVas (some b) with
    | none => exact fun _ hm => hm
    | some bv =>
      dsimp only
      split_ifs
      · exact vmBoRmv_va_subset h (some b)
      · exact vmBoRmv_va_subset h (some b)
      · exact fun _ hm => hm

theorem Placed.effect (h : Placed v) (hi : InStep v.vm) {env : IoctlEnv} {req : VaRequest} {va : ℕ}
    {k : Key} (hva : vaAddressOk req = .ok va) (hk : vaKey env req v.vm = .ok k)
    (hw : ¬ CutsTail env req v.vm) (heff : VaEffect env req va k v.vm s) :
    Placed ⟨s, userAfter env req v.vm (.ok ()) v.user⟩ := by
  simp only [userAfter, hva, hk]
  cases heff with
  | map hop hok hpts hfree =>
    rw [if_pos (.inl hop)]
    apply h.insertMap
    intro m hm hov
    have hmem : m ∈ vmItIter v.vm.va (va / gpuPageSize) (lastByte va req.mapSize / gpuPageSize) :=
      mem_vmItIter.mpr ⟨hm, hov⟩
    rw [hfree] at hmem
    cases hmem
  | unmap hop =>
    have hno : ¬ (req.operation = vaOpMap ∨ req.operation = vaOpReplace) := by
      rw [hop]
      decide
    rw [if_neg hno]
    exact h.subset (vmBoUnmap_va_subset v.vm k va)
  | clear hop hb ha =>
    have hno : ¬ (req.operation = vaOpMap ∨ req.operation = vaOpReplace) := by
      rw [hop]
      decide
    rw [if_neg hno]
    have ht := noTail_of_not_cutsTail hw hva hk hb ha (.inl hop)
    exact h.fronts fun m hm => hi.synced.tidy.mem_clearRange_front ht hm
  | replaceMap hop hok hpts halloc hb ha =>
    rw [if_pos (.inr hop)]
    have ht := noTail_of_not_cutsTail hw hva hk hb ha (.inr ⟨hop, hok, hpts, halloc⟩)
    have hcleared := h.fronts fun m hm => hi.synced.tidy.mem_clearRange_front ht hm
    exact hcleared.insertMap hi.synced.tidy.clearRange_free

end Placed

/-- The steps after which a submission can be right: no clear and no replace takes the end off a
mapping, no uninitialised `max_entries` wraps around, and no BO that shares the root directory's
reservation object is evicted while a submission holds it. -/
def KeepsCurrent (v : View) : Event → Prop
  | .ioctl env req => env.update.Bounded ∧ ¬ CutsTail env req v.vm
  | .submit env => env.update.Bounded ∧ (∀ b, HoldsRoot v.vm (env.validate b).1) ∧
      HoldsRoot v.vm env.moves
  | _ => True

theorem inStep_fresh {s : State} (h : Fresh s) : InStep s := by
  have ho := orderly_fresh h
  have hlists : ∀ k b, s.boVas k = some b → b.moved = false ∧ b.cleared = false ∧ b.valids = [] := by
    intro k b hb
    rw [h.boVas] at hb
    by_cases hk : k = none
    · subst hk
      rw [Function.update_self] at hb
      cases hb
      exact ⟨rfl, rfl, rfl⟩
    · rw [Function.update_of_ne hk] at hb
      cases hb
  constructor
  · constructor
    · exact ho.tidy
    · simp [h.va]
    · intro k b hb _ _ m hm
      rw [(hlists k b hb).2.2] at hm
      cases hm
    · simp [h.va]
    · intro k b hb _ hm
      rw [(hlists k b hb).1] at hm
      cases hm
    · exact fun k b hb _ => (hlists k b hb).2.1
  · rw [h.status]
    decide
  · exact ho.prt

theorem inStep_step {v v' : View} {e : Event} (h : InStep v.vm ∧ Placed v)
    (hg : KeepsCurrent v e) (hs : v.step e v') : InStep v'.vm ∧ Placed v' := by
  obtain ⟨s', user'⟩ := v'
  obtain ⟨hi, hp⟩ := h
  cases e with
  | ioctl env req =>
    obtain ⟨r, hr, hu⟩ := hs
    dsimp only at hr hu
    refine ⟨hi.gemVaIoctl hr hg.1 hg.2, ?_⟩
    rcases gemVaIoctl_effect hr with ⟨⟨e, rfl⟩, rfl⟩ | ⟨va, k, s₁, hva, hk, heff, rfl, hend⟩
    · rw [hu]
      exact hp
    · have hplaced := hp.effect hi hva hk hg.2 heff
      rw [← hu] at hplaced
      rcases hend with rfl | hup
      · exact hplaced
      · exact hplaced.subset fun m hm => by rwa [(sameLists_gemVaUpdateVm hup).va] at hm
  | openBo addOk b =>
    obtain ⟨hs, rfl⟩ := hs
    rw [show s' = _ from hs]
    refine ⟨hi.gemObjectOpen addOk b, hp.subset fun m hm => ?_⟩
    rwa [(sameLists_gemObjectOpen addOk v.vm b).va] at hm
  | closeBo reserveOk ptsReady budget b =>
    obtain ⟨hs, rfl⟩ := hs
    rw [show s' = _ from hs]
    refine ⟨hi.gemObjectClose reserveOk ptsReady budget b, hp.subset ?_⟩
    exact gemObjectClose_va_subset hi.synced.tidy reserveOk ptsReady budget b
  | move b evicted mem =>
    obtain ⟨hs, rfl⟩ := hs
    rw [show s' = _ from hs]
    refine ⟨hi.boMove b evicted mem, hp.subset fun m hm => ?_⟩
    rwa [(sameLists_boMove v.vm b evicted mem).va] at hm
  | setPlacement b preferred =>
    obtain ⟨hs, rfl⟩ := hs
    rw [show s' = _ from hs]
    refine ⟨hi.setPlacement b preferred, hp.subset fun m hm => ?_⟩
    rwa [(sameLists_gemSetPlacement v.vm b preferred).va] at hm
  | submit env =>
    obtain ⟨⟨ok, hr⟩, rfl⟩ := hs
    refine ⟨(hi.submit hg.1 hg.2 hr).1, hp.subset fun m hm => ?_⟩
    rwa [(sameLists_submit hr).va] at hm

/-- A submission sees current translations: at every page of every mapping of a per-VM or listed
BO, the entry shows the BO's backing at the offset that the user mapped there. -/
def SeesCurrent (env : SubmitEnv) (v : View) : Prop :=
  ∀ b, v.vm.perVm (some b) = true ∨ b ∈ env.boList →
    ∀ m ∈ v.vm.va, m.boVa = some b → ∀ p, m.Covers p →
      ∃ offset, v.user p = some (some b, offset) ∧
        Current (some (v.vm.bos b)) offset (v.vm.pte p)

/-- In every run whose steps meet the condition, each `vm_status` node is on at most one list, and
a submission whose two calls return 0 sees current translations. -/
theorem seesCurrent_of_keepsCurrent {v : View}
    (h : Transition.Reach (fun v => Fresh v.vm) View.step KeepsCurrent v) :
    v.vm.status.all.Nodup ∧ ∀ (env : SubmitEnv) (s : State), KeepsCurrent v (.submit env) →
      submit env v.vm = some (true, s) → SeesCurrent env ⟨s, v.user⟩ ∧ s.status.all.Nodup := by
  have hinv : InStep v.vm ∧ Placed v := by
    apply h.invariant (I := fun v => InStep v.vm ∧ Placed v)
    · intro v hf
      refine ⟨inStep_fresh hf, fun m hm => ?_⟩
      rw [hf.va] at hm
      cases hm
    · exact fun v e v' hv hg hs => inStep_step hv hg hs
  obtain ⟨hi, hp⟩ := hinv
  refine ⟨hi.nodup, fun env s hg hr => ?_⟩
  obtain ⟨hstep, hcur⟩ := hi.submit hg.1 hg.2 hr
  have hva := (sameLists_submit hr).va
  refine ⟨fun b hb m hm hk p hcov => ?_, hstep.nodup⟩
  refine ⟨m.offsetAt p, ?_, hcur rfl b hb m hm hk p hcov⟩
  have huser := hp m (hva ▸ hm) p hcov
  rwa [hk] at huser

/-- A VM with one BO in GTT open. -/
def viewedVm : State :=
  { openedVm with bos := fun _ => ⟨2 ^ 24, .tt fun i => i * pageSize, false, fun _ => true, false, 0⟩ }

/-- Pages 64 to 67, mapped with `GSGPU_VM_DELAY_UPDATE`. -/
def mapFour : VaRequest :=
  { mapPages with mapSize := 4 * gpuPageSize, mapSize_lt := by decide }

/-- A clear of page 65. -/
def clearSecond : VaRequest :=
  { mapPages with
    operation := vaOpClear
    vaAddress := 65 * gpuPageSize
    vaAddress_lt := by decide
    mapSize := gpuPageSize
    mapSize_lt := by decide }

/-- A submission with the BO in its list, in which nothing fails and nothing moves. -/
def submitOne : SubmitEnv :=
  ⟨fun _ => ([], true), [], [0], fun _ => true, fun _ => true, true, false, ⟨4, fun _ _ => 1⟩, 4⟩

/-- The VM and its user after `mapFour`. -/
def fourPages : View :=
  ⟨vmBoInsertMap viewedVm ⟨some 0, 64, 67, 0, 0⟩,
    userAfter allOk mapFour viewedVm (.ok ()) fun _ => none⟩

theorem reach_fourPages (good : View → Event → Prop) (hopen : ∀ v b, good v (.openBo true b))
    (hmap : good ⟨viewedVm, fun _ => none⟩ (.ioctl allOk mapFour)) :
    Transition.Reach (fun v => Fresh v.vm) View.step good fourPages := by
  have hfresh : Transition.Reach (fun v => Fresh v.vm) View.step good ⟨{ viewedVm with
      boVas := Function.update (fun _ => none) none (some ⟨1, false, false, [], []⟩) },
      fun _ => none⟩ := .start ⟨rfl, rfl, rfl, rfl, fun _ => rfl⟩
  have hopened : Transition.Reach (fun v => Fresh v.vm) View.step good ⟨viewedVm, fun _ => none⟩ :=
    hfresh.next (e := .openBo true 0) (hopen _ 0) ⟨rfl, rfl⟩
  exact hopened.next (e := .ioctl allOk mapFour) hmap ⟨.ok (), rfl, rfl⟩

/-- Of four pages the second is cleared; the submission then shows page 0 of the BO where the user
mapped page 2. -/
theorem tail_shows_other_page : ¬ ∀ v : View,
    Transition.Reach (fun v => Fresh v.vm) View.step (fun _ _ => True) v →
      ∀ (env : SubmitEnv) (s : State), submit env v.vm = some (true, s) →
        SeesCurrent env ⟨s, v.user⟩ := by
  intro hall
  have hfour : Transition.Reach (fun v => Fresh v.vm) View.step (fun _ _ => True) fourPages :=
    reach_fourPages _ (by simp) trivial
  have hcleared : Transition.Reach (fun v => Fresh v.vm) View.step (fun _ _ => True)
      ⟨clearRange fourPages.vm 65 65, fourPages.user⟩ :=
    hfour.next (e := .ioctl allOk clearSecond) trivial ⟨.ok (), rfl, rfl⟩
  have hsubmit : ∃ s, submit submitOne (clearRange fourPages.vm 65 65) = some (true, s) ∧
      ⟨some 0, 66, 67, 2, 0⟩ ∈ s.va ∧ (s.pte 66).addr = 0 ∧ (s.bos 0).mem.pageAddr 2 = 2 * pageSize ∧
      (s.bos 0).mem.resident = true := ⟨_, rfl, by decide, by decide, by decide, by decide⟩
  obtain ⟨s, hr, hm, haddr, hpage, hres⟩ := hsubmit
  obtain ⟨offset, huser, hcur⟩ := hall _ hcleared submitOne s hr 0 (.inr (by decide)) _ hm rfl 66
    (by decide)
  have hoffset : fourPages.user 66 = some (some 0, 2 * gpuPageSize) := by decide
  rw [hoffset] at huser
  cases huser
  simp only [Current, hres, if_true] at hcur
  rw [haddr] at hcur
  exact absurd (hcur.2.trans hpage) (by decide)

theorem fourPages_submission : ∃ s, submit submitOne fourPages.vm = some (true, s) ∧
    SeesCurrent submitOne ⟨s, fourPages.user⟩ := by
  have hmap : KeepsCurrent ⟨viewedVm, fun _ => none⟩ (.ioctl allOk mapFour) := by
    constructor
    · exact fun _ _ => Nat.two_pow_pos 63
    · rintro ⟨-, -, va, k, -, -, hop | ⟨hop, -⟩, -⟩
      · exact absurd hop (by decide)
      · exact absurd hop (by decide)
  have hreach := reach_fourPages KeepsCurrent (fun _ _ => trivial) hmap
  have hgood : KeepsCurrent fourPages (.submit submitOne) := by
    have hbounded : submitOne.update.Bounded := fun _ _ => Nat.one_lt_two_pow (by decide)
    refine ⟨hbounded, fun b m hm => ?_, fun m hm => ?_⟩
    · cases hm
    · cases hm
  exact ⟨_, rfl, ((seesCurrent_of_keepsCurrent hreach).2 submitOne _ hgood rfl).1⟩

end Gsgpu.Vm
