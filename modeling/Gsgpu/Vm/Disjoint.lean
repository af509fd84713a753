import Gsgpu.Lib.Run
import Gsgpu.Vm.Lists
import Mathlib.Tactic.ByContra

/-! A GPU address space is a set of disjoint intervals, in every state that the requests of
userspace and the moves of its BOs can reach, as long as no range clear wraps around. -/
namespace Gsgpu.Vm

section InsertMap
variable (s : State) (m : Mapping)

@[simp]
theorem vmBoInsertMap_va : (vmBoInsertMap s m).va = vmItInsert m s.va := by
  unfold vmBoInsertMap
  split <;> try split_ifs
  all_goals rfl

@[simp]
theorem vmBoInsertMap_boVas : (vmBoInsertMap s m).boVas = addInvalid s.boVas m := by
  unfold vmBoInsertMap
  split <;> try split_ifs
  all_goals rfl

@[simp]
theorem vmBoInsertMap_freed : (vmBoInsertMap s m).freed = s.freed := by
  unfold vmBoInsertMap
  split <;> try split_ifs
  all_goals rfl

@[simp]
theorem vmBoInsertMap_pte : (vmBoInsertMap s m).pte = s.pte := by
  unfold vmBoInsertMap
  split <;> try split_ifs
  all_goals rfl

@[simp]
theorem vmBoInsertMap_bos : (vmBoInsertMap s m).bos = s.bos := by
  unfold vmBoInsertMap
  split <;> try split_ifs
  all_goals rfl

end InsertMap

namespace Tidy
variable {bound : ℕ} {s : State}

theorem vmBoInsertMap (h : Tidy bound s) {m : Mapping} (hm : m.start ≤ m.last ∧ m.last < bound)
    (hfree : ∀ m' ∈ s.va, ¬ m'.Overlaps m.start m.last) (hlive : s.boVas m.boVa ≠ none) :
    Tidy bound (vmBoInsertMap s m) := by
  have hperm := vmItInsert_perm m s.va
  constructor
  · intro m' hm'
    rw [vmBoInsertMap_va, hperm.mem_iff] at hm'
    rcases List.mem_cons.mp hm' with rfl | hm'
    · exact hm
    · exact h.bounds m' hm'
  · rw [vmBoInsertMap_va]
    apply pairwise_perm hperm.symm
    apply List.pairwise_cons.mpr
    constructor
    · intro m' hm'
      have hno := hfree m' hm'
      unfold Mapping.Overlaps at hno
      unfold Mapping.Disjoint
      omega
    · exact h.disjoint
  · rw [vmBoInsertMap_va, vmBoInsertMap_boVas]
    exact (h.listed.addInvalid hlive).perm hperm.symm

theorem erase (h : Tidy bound s) (m : Mapping) {s' : State} (hva : s'.va = s.va.erase m)
    (hbo : s'.boVas = delMapping s.boVas m) : Tidy bound s' := by
  constructor
  · intro m' hm'
    rw [hva] at hm'
    exact h.bounds m' (List.mem_of_mem_erase hm')
  · rw [hva]
    exact h.disjoint.sublist List.erase_sublist
  · rw [hva, hbo]
    exact h.listed.delMapping m

theorem vmBoUnmap (h : Tidy bound s) (k : Key) (saddr : ℕ) :
    Tidy bound (vmBoUnmap s k saddr).2 := by
  unfold Vm.vmBoUnmap
  cases s.boVas k with
  | none => exact h
  | some b =>
    dsimp only
    split
    · exact h.erase _ rfl rfl
    · split
      · exact h.erase _ rfl rfl
      · exact h

/-- The tree without the mappings of one `bo_va`. -/
theorem foldl_erase_lists (h : Tidy bound s) {k : Key} {b : BoVa} (hb : s.boVas k = some b) :
    (b.valids ++ b.invalids).foldl List.erase s.va = s.va.filter fun m => m.boVa ≠ k := by
  rw [← List.diff_eq_foldl, h.spaced.nodup.sdiff_eq_filter]
  apply List.filter_congr
  intro m hm
  have hmem := (h.listed k).mem_iff (a := m)
  rw [listsOf, hb] at hmem
  simp only [List.mem_filter, hm, true_and, decide_eq_true_eq] at hmem
  simp [← hmem]

theorem vmBoRmv (h : Tidy bound s) (k : Key) : Tidy bound (vmBoRmv s k) := by
  unfold Vm.vmBoRmv
  cases hb : s.boVas k with
  | none => exact h
  | some b =>
    have hva := h.foldl_erase_lists hb
    dsimp only
    constructor
    · intro m hm
      rw [hva] at hm
      exact h.bounds m (List.mem_of_mem_filter hm)
    · rw [hva]
      exact h.disjoint.filter _
    · rw [hva]
      intro k'
      rw [List.filter_filter]
      by_cases hk : k' = k
      · subst hk
        simp [listsOf]
      · rw [listsOf_update_of_ne _ _ hk]
        apply (h.listed k').trans
        apply List.Perm.of_eq
        apply List.filter_congr
        intro m _
        by_cases hm : m.boVa = k'
        · simp [hm, hk]
        · simp [hm]

/-- After a clear nothing overlaps the range. -/
theorem clearRange_free (h : Tidy bound s) {f l : ℕ} :
    ∀ m ∈ (Vm.clearRange s f l).va, ¬ m.Overlaps f l := by
  intro m hm
  rcases h.spaced.mem_clearRange.mp hm with ⟨t, ht, he, rfl⟩ | ⟨t, ht, hs, rfl⟩ | ⟨-, hno⟩
  · simp only [Mapping.Overlaps, afterPart]
    omega
  · simp only [Mapping.Overlaps, beforePart]
    omega
  · exact hno

end Tidy

/-- The tree is untouched, and every `bo_va` keeps its mappings, on whichever list. -/
structure SameLists (s s' : State) : Prop where
  va : s'.va = s.va
  lists : ∀ k, (listsOf s'.boVas k).Perm (listsOf s.boVas k)
  live : ∀ k, s.boVas k ≠ none → s'.boVas k ≠ none

namespace SameLists
variable {s s' s'' : State}

theorem of_eq (hva : s'.va = s.va) (hbo : s'.boVas = s.boVas) : SameLists s s' := by
  constructor
  · exact hva
  · intro k
    rw [hbo]
  · intro k hk
    rwa [hbo]

theorem refl (s : State) : SameLists s s := .of_eq rfl rfl

theorem trans (h : SameLists s s') (h' : SameLists s' s'') : SameLists s s'' := by
  constructor
  · rw [h'.va, h.va]
  · intro k
    exact (h'.lists k).trans (h.lists k)
  · intro k hk
    exact h'.live k (h.live k hk)

theorem setBoVa {k : Key} {b : BoVa} (hva : s'.va = s.va)
    (hbo : s'.boVas = Function.update s.boVas k (some b))
    (hb : (b.valids ++ b.invalids).Perm (listsOf s.boVas k)) : SameLists s s' := by
  constructor
  · exact hva
  · intro k'
    rw [hbo]
    by_cases hk : k' = k
    · subst hk
      rwa [listsOf_update_self]
    · rw [listsOf_update_of_ne _ _ hk]
  · intro k' hk'
    rw [hbo]
    by_cases hk : k' = k
    · subst hk
      simp
    · rwa [Function.update_of_ne hk]

theorem tidy (h : SameLists s s') {bound : ℕ} (ht : Tidy bound s) : Tidy bound s' := by
  constructor
  · rw [h.va]
    exact ht.bounds
  · rw [h.va]
    exact ht.disjoint
  · rw [h.va]
    exact fun k => (h.lists k).trans (ht.listed k)

end SameLists

theorem BoVa.prepare_perm (b : BoVa) (clear : Bool) :
    ((b.prepare clear).valids ++ (b.prepare clear).invalids).Perm (b.valids ++ b.invalids) := by
  unfold BoVa.prepare
  split_ifs <;> simp

section SameLists
variable {s s' : State}

theorem sameLists_vmBoUpdate {env : UpdateEnv} {k : Key} {clear : Bool} {budget : ℕ}
    {r : Result State} (h : vmBoUpdate env s k clear budget = some r) : SameLists s r.val := by
  unfold vmBoUpdate at h
  cases hb : s.boVas k with
  | none =>
    simp only [hb, Option.some.injEq] at h
    subst h
    exact .refl s
  | some b =>
    have hperm : ((b.prepare clear).valids ++ (b.prepare clear).invalids).Perm
        (listsOf s.boVas k) := by
      rw [listsOf, hb]
      exact b.prepare_perm clear
    simp only [hb] at h
    split at h
    · cases h
    · cases h
      exact .setBoVa rfl rfl hperm
    · cases h
      have hfinal : (((b.prepare clear).invalids ++ (b.prepare clear).valids) ++ []).Perm
          (listsOf s.boVas k) := by
        rw [List.append_nil]
        exact List.perm_append_comm.trans hperm
      exact .setBoVa rfl rfl hfinal

theorem sameLists_vmClearFreed (s : State) (budget : ℕ) :
    SameLists s (vmClearFreed s budget).val := .of_eq rfl rfl

theorem sameLists_handleMovedLoop {env : UpdateEnv} {trylock : Key → Bool} {ks : List Key}
    {budget : ℕ} {r : Result State} (h : handleMovedLoop env trylock ks budget s = some r) :
    SameLists s r.val := by
  induction ks generalizing budget s with
  | nil =>
    cases h
    exact .refl s
  | cons k ks ih =>
    unfold handleMovedLoop at h
    dsimp only at h
    split at h
    · cases h
    · rename_i hr
      cases h
      exact (sameLists_vmBoUpdate hr).trans (.of_eq rfl rfl)
    · rename_i hr
      exact (sameLists_vmBoUpdate hr).trans (ih h)

theorem sameLists_vmHandleMoved {env : UpdateEnv} {trylock : Key → Bool} {budget : ℕ}
    {r : Result State} (h : vmHandleMoved env trylock s budget = some r) : SameLists s r.val := by
  have hsplice : SameLists s { s with status := { s.status with moved := [] } } := .of_eq rfl rfl
  exact hsplice.trans (sameLists_handleMovedLoop h)

theorem sameLists_updateListLoop {env : SubmitEnv} {bs : List ℕ} {i budget : ℕ}
    {r : Result State} (h : updateListLoop env i bs budget s = some r) : SameLists s r.val := by
  induction bs generalizing i budget s with
  | nil =>
    cases h
    exact .refl s
  | cons b bs ih =>
    unfold updateListLoop at h
    split at h
    · cases h
    · rename_i hr
      cases h
      exact sameLists_vmBoUpdate hr
    · rename_i hr
      have hb := sameLists_vmBoUpdate hr
      split at h
      · exact hb.trans (ih h)
      · cases h
        exact hb

theorem sameLists_vmBoInvalidate (s : State) (b : ℕ) (evicted : Bool) :
    SameLists s (vmBoInvalidate s b evicted) := by
  unfold vmBoInvalidate
  cases hb : s.boVas (some b) with
  | none => exact .refl s
  | some bv =>
    have hperm : (bv.valids ++ bv.invalids).Perm (listsOf s.boVas (some b)) := by
      rw [listsOf, hb]
    dsimp only
    split_ifs <;> exact .setBoVa rfl rfl hperm

theorem sameLists_boMove (s : State) (b : ℕ) (evicted : Bool) (mem : Mem) :
    SameLists s (boMove s b evicted mem) :=
  (sameLists_vmBoInvalidate s b evicted).trans (.of_eq rfl rfl)

theorem sameLists_foldl {α : Type} {f : State → α → State} (hf : ∀ s a, SameLists s (f s a))
    (l : List α) (s : State) : SameLists s (l.foldl f s) := by
  induction l generalizing s with
  | nil => exact .refl s
  | cons a l ih => exact (hf s a).trans (ih (f s a))

theorem sameLists_moveAll (moves : List Move) (s : State) : SameLists s (moveAll moves s) := by
  apply sameLists_foldl
  intro s m
  exact sameLists_boMove s m.bo m.evicted m.mem

theorem sameLists_validateLoop (validate : ℕ → List Move × Bool) (ks : List Key) (s : State) :
    SameLists s (validateLoop validate ks s).2 := by
  induction ks generalizing s with
  | nil => exact .refl s
  | cons k ks ih =>
    cases k with
    | none => exact ih s
    | some b =>
      have hmoves := sameLists_moveAll (validate b).1 s
      unfold validateLoop
      dsimp only
      split_ifs
      · have hqueue : SameLists (moveAll (validate b).1 s) { moveAll (validate b).1 s with
            status := (moveAll (validate b).1 s).status.moveToMoved (some b) } := .of_eq rfl rfl
        exact (hmoves.trans hqueue).trans (ih _)
      · exact hmoves

theorem sameLists_updateEnd (env : SubmitEnv) (s : State) : SameLists s (updateEnd env s).2 := by
  unfold updateEnd
  split_ifs
  · exact sameLists_foldl (fun s b => sameLists_vmBoInvalidate s b false) _ s
  all_goals exact .refl s

theorem sameLists_boVmUpdatePte {env : SubmitEnv} {ok : Bool}
    (h : boVmUpdatePte env s = some (ok, s')) : SameLists s s' := by
  have hfreed := sameLists_vmClearFreed s env.budget
  unfold boVmUpdatePte at h
  dsimp only at h
  split at h
  · cases h
    exact hfreed
  · split at h
    · cases h
    · rename_i hprt
      cases h
      exact hfreed.trans (sameLists_vmBoUpdate hprt)
    · rename_i hprt
      have hprt := hfreed.trans (sameLists_vmBoUpdate hprt)
      split at h
      · cases h
        exact hprt
      · split at h
        · cases h
        · rename_i hlist
          cases h
          exact hprt.trans (sameLists_updateListLoop hlist)
        · rename_i hlist
          have hlist := hprt.trans (sameLists_updateListLoop hlist)
          split at h
          · cases h
          · rename_i hmoved
            cases h
            exact hlist.trans (sameLists_vmHandleMoved hmoved)
          · rename_i hmoved
            have hmoved := hlist.trans (sameLists_vmHandleMoved hmoved)
            have hend := hmoved.trans (sameLists_updateEnd env _)
            rw [Option.some.inj h] at hend
            exact hend

theorem sameLists_submit {env : SubmitEnv} {ok : Bool} (h : submit env s = some (ok, s')) :
    SameLists s s' := by
  have hval := sameLists_validateLoop env.validate s.status.evicted s
  unfold submit vmValidatePtBos at h
  split at h
  · rename_i hv
    rw [hv] at hval
    cases h
    exact hval
  · rename_i hv
    rw [hv] at hval
    exact (hval.trans (sameLists_moveAll env.moves _)).trans (sameLists_boVmUpdatePte h)

theorem sameLists_gemSetPlacement (s : State) (b : ℕ) (preferred : Mem → Bool) :
    SameLists s (gemSetPlacement s b preferred) := by
  have hbos : SameLists s
      { s with bos := Function.update s.bos b { s.bos b with preferred := preferred } } :=
    .of_eq rfl rfl
  unfold gemSetPlacement
  dsimp only
  split_ifs
  · exact hbos.trans (sameLists_vmBoInvalidate _ b true)
  · exact hbos

theorem sameLists_gemVaUpdateVm {env : IoctlEnv} {k : Key} {operation : ℕ}
    (h : gemVaUpdateVm env s k operation = some s') : SameLists s s' := by
  have hfreed := sameLists_vmClearFreed s env.budget
  unfold gemVaUpdateVm at h
  dsimp only at h
  split_ifs at h
  · cases h
    exact .refl s
  · obtain ⟨r, hr, rfl⟩ := Option.map_eq_some_iff.mp h
    exact hfreed.trans (sameLists_vmBoUpdate hr)
  · cases h
    exact hfreed

theorem sameLists_vmBoAdd {k : Key} (h : s.boVas k = none) : SameLists s (vmBoAdd s k) := by
  have hperm : ([] ++ [] : List Mapping).Perm (listsOf s.boVas k) := by simp [listsOf, h]
  cases k with
  | none => exact .setBoVa rfl rfl hperm
  | some b =>
    unfold vmBoAdd
    dsimp only
    split_ifs <;> exact .setBoVa rfl rfl hperm

theorem sameLists_gemObjectOpen (addOk : Bool) (s : State) (b : ℕ) :
    SameLists s (gemObjectOpen addOk s b) := by
  unfold gemObjectOpen
  cases hb : s.boVas (some b) with
  | some bv =>
    have hperm : (bv.valids ++ bv.invalids).Perm (listsOf s.boVas (some b)) := by
      rw [listsOf, hb]
    exact .setBoVa rfl rfl hperm
  | none =>
    dsimp only
    split_ifs
    · exact sameLists_vmBoAdd hb
    · exact .refl s

end SameLists

section Requested
variable {s : State} {k : Key} {saddr offset size flags : ℕ}

theorem mapParamsOk_lt (h : mapParamsOk s k saddr offset size = true) :
    saddr < lastByte saddr size := by
  unfold mapParamsOk at h
  simp only [Bool.and_eq_true, decide_eq_true_eq] at h
  exact h.1.2

/-- An accepted range does not wrap around. -/
theorem mapParamsOk_le (h : mapParamsOk s k saddr offset size = true) (hs : saddr < 2 ^ 64)
    (hsize : size < 2 ^ 64) : saddr + size ≤ 2 ^ 64 := by
  have hlt := mapParamsOk_lt h
  unfold lastByte u64 at hlt
  omega

theorem requested_bounds {bound : ℕ} (h : mapParamsOk s k saddr offset size = true)
    (hb : lastByte saddr size / gpuPageSize < bound) :
    (requested k saddr offset size flags).start ≤ (requested k saddr offset size flags).last ∧
      (requested k saddr offset size flags).last < bound := by
  constructor
  · exact Nat.div_le_div_right (mapParamsOk_lt h).le
  · exact hb

theorem noWrap_of_mapParamsOk (st : State) (h : mapParamsOk s k saddr offset size = true) :
    NoWrap st (saddr / gpuPageSize) (lastByte saddr size / gpuPageSize) := by
  left
  have := Nat.div_le_div_right (c := gpuPageSize) (mapParamsOk_lt h).le
  omega

theorem clearRange_ne_none {f l : ℕ} (h : s.boVas k ≠ none) :
    (clearRange s f l).boVas k ≠ none := by
  have hfold : ∀ (tmps : List Mapping) (acc : ClearAcc), acc.boVas k ≠ none →
      (tmps.foldl (clearStep f l) acc).boVas k ≠ none := by
    intro tmps
    induction tmps with
    | nil => exact fun acc hacc => hacc
    | cons t ts ih =>
      intro acc hacc
      apply ih
      apply delMapping_ne_none
      unfold keepAfter keepBefore
      split_ifs
      · exact addInvalid_ne_none _ (addInvalid_ne_none _ hacc)
      · exact addInvalid_ne_none _ hacc
      · exact addInvalid_ne_none _ hacc
      · exact hacc
  exact hfold _ _ h

/-- What a map or a replace leaves, when it gets through to the end. -/
theorem Tidy.insertRequested {bound : ℕ} (h : Tidy bound s) {s₀ : State}
    (hok : mapParamsOk s₀ k saddr offset size = true)
    (hb : lastByte saddr size / gpuPageSize < bound) (hlive : s.boVas k ≠ none)
    (hfree : ∀ m ∈ s.va, ¬ m.Overlaps (saddr / gpuPageSize) (lastByte saddr size / gpuPageSize)) :
    Tidy bound (Vm.vmBoInsertMap s (requested k saddr offset size flags)) :=
  h.vmBoInsertMap (requested_bounds hok hb) hfree hlive

theorem Tidy.vmBoMap {bound : ℕ} (h : Tidy bound s) (allocOk : Bool)
    (hb : lastByte saddr size / gpuPageSize < bound) (hlive : s.boVas k ≠ none) :
    Tidy bound (vmBoMap allocOk s k saddr offset size flags).2 := by
  unfold Vm.vmBoMap
  dsimp only
  split_ifs with hok hov
  · exact h
  · exact h
  · exact h
  · have hok : mapParamsOk s k saddr offset size = true := by simpa using hok
    apply h.insertRequested hok hb hlive
    intro m hm hover
    have hnil : vmItIter s.va (saddr / gpuPageSize) (lastByte saddr size / gpuPageSize) = [] := by
      simpa [requested] using hov
    have : m ∈ vmItIter s.va (saddr / gpuPageSize) (lastByte saddr size / gpuPageSize) :=
      mem_vmItIter.mpr ⟨hm, hover⟩
    rw [hnil] at this
    cases this

theorem Tidy.vmBoClearMappings {bound : ℕ} (h : Tidy bound s) {beforeOk afterOk : Bool}
    (hw : NoWrap s (saddr / gpuPageSize) (lastByte saddr size / gpuPageSize)) :
    Tidy bound (vmBoClearMappings beforeOk afterOk s saddr size).2 := by
  unfold Vm.vmBoClearMappings
  split_ifs
  · exact h
  · exact h.clearRange hw

theorem Tidy.vmBoReplaceMap {bound : ℕ} (h : Tidy bound s) (allocOk beforeOk afterOk : Bool)
    (hb : lastByte saddr size / gpuPageSize < bound) (hlive : s.boVas k ≠ none) :
    Tidy bound (vmBoReplaceMap allocOk beforeOk afterOk s k saddr offset size flags).2 := by
  unfold Vm.vmBoReplaceMap Vm.vmBoClearMappings
  split_ifs with hok ha hc
  · exact h
  · exact h
  · exact h
  · have hok : mapParamsOk s k saddr offset size = true := by simpa using hok
    have hclear := h.clearRange (noWrap_of_mapParamsOk s hok)
    exact hclear.insertRequested hok hb (clearRange_ne_none hlive) h.clearRange_free

end Requested

/-- The request reaches `gsgpu_vm_bo_clear_mappings`, and its range wraps around over a mapping:
`saddr + size - 1` is at least a page below `saddr`. -/
def ClearWraps (env : IoctlEnv) (req : VaRequest) (s : State) : Prop :=
  req.operation = vaOpClear ∧ env.beforeOk = true ∧ env.afterOk = true ∧
    env.reserve = .ok () ∧ ∃ va, vaAddressOk req = .ok va ∧
      ¬ NoWrap s (va / gpuPageSize) (lastByte va req.mapSize / gpuPageSize)

/-- The address space is a set of disjoint intervals, and every mapping is on one list. -/
structure Intervals (s : State) : Prop where
  bounds : ∀ m ∈ s.va, m.start ≤ m.last ∧ m.last < maxPfn
  disjoint : s.va.Pairwise Mapping.Disjoint
  onOneList : ∀ m ∈ s.va, ∃ b, s.boVas m.boVa = some b ∧
    b.valids.count m + b.invalids.count m = 1

theorem Tidy.intervals {s : State} (h : Tidy maxPfn s) : Intervals s := by
  constructor
  · exact h.bounds
  · exact h.disjoint
  · intro m hm
    obtain ⟨b, hb, -⟩ := h.listed.live hm
    have hcount := (h.listed m.boVa).count_eq m
    rw [listsOf, hb, List.count_append, List.count_filter (by simp),
      List.count_eq_one_of_mem h.spaced.nodup hm] at hcount
    exact ⟨b, hb, hcount⟩

/-- What every reachable state keeps. The PRT `bo_va` is there for as long as the VM is. -/
structure Orderly (s : State) : Prop where
  tidy : Tidy maxPfn s
  prt : s.boVas none ≠ none

theorem SameLists.orderly {s s' : State} (h : SameLists s s') (ho : Orderly s) : Orderly s' :=
  ⟨h.tidy ho.tidy, h.live none ho.prt⟩

section Ioctl
variable {env : IoctlEnv} {req : VaRequest} {s s' : State} {k : Key} {va : ℕ}

theorem vmAllocPts_lt {allocLevels : Except Errno Unit} {saddr size : ℕ}
    (h : vmAllocPts allocLevels saddr size = .ok ()) :
    lastByte saddr size / gpuPageSize < maxPfn := by
  unfold vmAllocPts at h
  split_ifs at h with h₁ h₂
  exact Nat.lt_of_not_le h₂

theorem vaKey_live (h : Orderly s) (hk : vaKey env req s = .ok k) : s.boVas k ≠ none := by
  unfold vaKey at hk
  split_ifs at hk with hop
  · cases hl : env.lookup with
    | none =>
      rw [hl] at hk
      cases hk
    | some b =>
      rw [hl] at hk
      cases hr : env.reserve with
      | error e =>
        rw [hr] at hk
        cases hk
      | ok u =>
        simp only [hr] at hk
        split_ifs at hk with hsome
        cases hk
        exact Option.isSome_iff_ne_none.mp hsome
  · cases hr : env.reserve with
    | error e =>
      rw [hr] at hk
      cases hk
    | ok u =>
      rw [hr] at hk
      cases hk
      exact h.prt

theorem vaKey_reserve (hk : vaKey env req s = .ok k) : env.reserve = .ok () := by
  unfold vaKey at hk
  cases hr : env.reserve with
  | error e =>
    rw [hr] at hk
    cases hl : env.lookup with
    | none =>
      simp only [hl] at hk
      split_ifs at hk
    | some b =>
      simp only [hl] at hk
      split_ifs at hk
  | ok u => rfl

theorem vmBoUnmap_ne_none (s : State) (k : Key) (saddr : ℕ) {k' : Key} (h : s.boVas k' ≠ none) :
    (vmBoUnmap s k saddr).2.boVas k' ≠ none := by
  unfold vmBoUnmap
  cases s.boVas k with
  | none => exact h
  | some b =>
    dsimp only
    split
    · exact delMapping_ne_none _ h
    · split
      · exact delMapping_ne_none _ h
      · exact h

theorem vmBoMap_ne_none {allocOk : Bool} {saddr offset size flags : ℕ} {k' : Key}
    (h : s.boVas k' ≠ none) : (vmBoMap allocOk s k saddr offset size flags).2.boVas k' ≠ none := by
  unfold vmBoMap
  dsimp only
  split_ifs
  · exact h
  · exact h
  · exact h
  · rw [vmBoInsertMap_boVas]
    exact addInvalid_ne_none _ h

theorem vmBoReplaceMap_ne_none {allocOk beforeOk afterOk : Bool} {saddr offset size flags : ℕ}
    {k' : Key} (h : s.boVas k' ≠ none) :
    (vmBoReplaceMap allocOk beforeOk afterOk s k saddr offset size flags).2.boVas k' ≠ none := by
  unfold vmBoReplaceMap vmBoClearMappings
  split_ifs
  · exact h
  · exact h
  · exact h
  · dsimp only
    rw [vmBoInsertMap_boVas]
    exact addInvalid_ne_none _ (clearRange_ne_none h)

/-- An operation keeps the order, unless it is a clear that wraps around. -/
theorem Orderly.vaOperation (h : Orderly s) (hlive : s.boVas k ≠ none)
    (hw : req.operation = vaOpClear → env.beforeOk = true → env.afterOk = true →
      NoWrap s (va / gpuPageSize) (lastByte va req.mapSize / gpuPageSize)) :
    Orderly (vaOperation env req va k s).2 := by
  unfold Vm.vaOperation
  split_ifs with hmap hunmap hclear
  · split
    · exact h
    · rename_i hpts
      exact ⟨h.tidy.vmBoMap _ (vmAllocPts_lt hpts) hlive, vmBoMap_ne_none h.prt⟩
  · exact ⟨h.tidy.vmBoUnmap k va, vmBoUnmap_ne_none s k va h.prt⟩
  · unfold vmBoClearMappings
    split_ifs with hok
    · exact h
    · simp only [Bool.not_eq_true, Bool.not_eq_false', Bool.and_eq_true] at hok
      exact ⟨h.tidy.clearRange (hw hclear hok.1 hok.2), clearRange_ne_none h.prt⟩
  · split
    · exact h
    · rename_i hpts
      exact ⟨h.tidy.vmBoReplaceMap _ _ _ (vmAllocPts_lt hpts) hlive, vmBoReplaceMap_ne_none h.prt⟩

/-- The ioctl fails early and changes nothing, or runs its operation and at most updates page
tables after that. -/
theorem gemVaIoctl_cases {r : Except Errno Unit} (h : gemVaIoctl env req s = some (r, s')) :
    (s' = s ∧ ∀ va k, vaAddressOk req = .ok va → vaKey env req s ≠ .ok k) ∨
      ∃ va k, vaAddressOk req = .ok va ∧ vaKey env req s = .ok k ∧
        SameLists (vaOperation env req va k s).2 s' := by
  unfold gemVaIoctl at h
  cases hva : vaAddressOk req with
  | error e =>
    rw [hva] at h
    cases h
    exact .inl ⟨rfl, fun _ _ h' => nomatch h'⟩
  | ok va =>
    rw [hva] at h
    cases hk : vaKey env req s with
    | error e =>
      simp only [hk] at h
      cases h
      exact .inl ⟨rfl, fun _ _ _ h' => nomatch h'⟩
    | ok k =>
      right
      have hsame : SameLists (vaOperation env req va k s).2 s' := by
        simp only [hk] at h
        split at h
        · rename_i hop
          cases h
          rw [hop]
          exact .refl _
        · rename_i hop
          rw [hop]
          split_ifs at h
          · obtain ⟨s₁, hs₁, heq⟩ := Option.map_eq_some_iff.mp h
            cases heq
            exact sameLists_gemVaUpdateVm hs₁
          · cases h
            exact .refl _
      exact ⟨va, k, rfl, rfl, hsame⟩

theorem Orderly.gemVaIoctl {r : Except Errno Unit} (h : Orderly s)
    (hr : gemVaIoctl env req s = some (r, s')) (hw : ¬ ClearWraps env req s) : Orderly s' := by
  rcases gemVaIoctl_cases hr with ⟨rfl, -⟩ | ⟨va, k, hva, hk, hsame⟩
  · exact h
  · apply hsame.orderly
    apply h.vaOperation (vaKey_live h hk)
    intro hop hb ha
    by_contra hno
    exact hw ⟨hop, hb, ha, vaKey_reserve hk, va, hva, hno⟩

/-- A clear that wraps around leaves overlapping mappings. -/
theorem Orderly.not_intervals_of_clearWraps {r : Except Errno Unit} (h : Orderly s)
    (hr : Vm.gemVaIoctl env req s = some (r, s')) (hw : ClearWraps env req s) :
    ¬ Intervals s' := by
  obtain ⟨hop, hb, ha, hres, va, hva, hwrap⟩ := hw
  have hkey : vaKey env req s = .ok none := by simp [vaKey, hop, hres]
  rcases gemVaIoctl_cases hr with ⟨-, hno⟩ | ⟨va', k, hva', hk, hsame⟩
  · exact absurd hkey (hno va none hva)
  · have hva : va' = va := by
      rw [hva] at hva'
      exact (Except.ok.inj hva').symm
    subst hva
    have hclear : (Vm.vaOperation env req va' k s).2 =
        Vm.clearRange s (va' / gpuPageSize) (lastByte va' req.mapSize / gpuPageSize) := by
      simp [Vm.vaOperation, vmBoClearMappings, hop, hb, ha, vaOpClear, vaOpMap, vaOpUnmap]
    intro hint
    apply h.tidy.not_disjoint_of_wrap hwrap
    rw [← hclear, ← hsame.va]
    exact hint.disjoint

end Ioctl

theorem Orderly.gemObjectClose {s : State} (h : Orderly s) (reserveOk ptsReady : Bool)
    (budget b : ℕ) : Orderly (gemObjectClose reserveOk ptsReady budget s b) := by
  have hrmv : Orderly (vmBoRmv s (some b)) := by
    constructor
    · exact h.tidy.vmBoRmv (some b)
    · unfold vmBoRmv
      cases s.boVas (some b) with
      | none => exact h.prt
      | some bv => simpa [Function.update_of_ne] using h.prt
  unfold Vm.gemObjectClose
  split_ifs
  · exact h
  · cases hb : s.boVas (some b) with
    | none => exact h
    | some bv =>
      have hperm : (bv.valids ++ bv.invalids).Perm (listsOf s.boVas (some b)) := by
        rw [listsOf, hb]
      dsimp only
      split_ifs
      · exact (sameLists_vmClearFreed _ budget).orderly hrmv
      · exact hrmv
      · have hsame : SameLists s
            (s.setBoVa (some b) { bv with refCount := bv.refCount - 1 }) := .setBoVa rfl rfl hperm
        exact hsame.orderly h

/-- The steps that are allowed: no range clear wraps around over a mapping. -/
def NoClearWraps (s : State) : Event → Prop
  | .ioctl env req => ¬ ClearWraps env req s
  | _ => True

theorem tidy_fresh {bound : ℕ} {s : State} (h : Fresh s) : Tidy bound s := by
  constructor
  · simp [h.va]
  · simp [h.va]
  · intro k
    rw [h.va, h.boVas]
    by_cases hk : k = none
    · subst hk
      simp [listsOf]
    · rw [listsOf_update_of_ne _ _ hk]
      simp [listsOf]

theorem orderly_fresh {s : State} (h : Fresh s) : Orderly s := by
  constructor
  · exact tidy_fresh h
  · simp [h.boVas]

theorem orderly_step {s s' : State} {e : Event} (h : Orderly s) (hg : NoClearWraps s e)
    (hs : step s e s') : Orderly s' := by
  cases e with
  | ioctl env req =>
    obtain ⟨r, hr⟩ := hs
    exact h.gemVaIoctl hr hg
  | openBo addOk b =>
    rw [show s' = _ from hs]
    exact (sameLists_gemObjectOpen addOk s b).orderly h
  | closeBo reserveOk ptsReady budget b =>
    rw [show s' = _ from hs]
    exact h.gemObjectClose reserveOk ptsReady budget b
  | move b evicted mem =>
    rw [show s' = _ from hs]
    exact (sameLists_boMove s b evicted mem).orderly h
  | setPlacement b preferred =>
    rw [show s' = _ from hs]
    exact (sameLists_gemSetPlacement s b preferred).orderly h
  | submit env =>
    obtain ⟨ok, hr⟩ := hs
    exact (sameLists_submit hr).orderly h

theorem orderly_run {s : State} (h : Transition.Reach Fresh step NoClearWraps s) : Orderly s :=
  h.invariant (fun _ hf => orderly_fresh hf) (fun _ _ _ ho hg hs => orderly_step ho hg hs)

/-- In every state reached without a clear that wraps around, the address space is a set of
disjoint intervals, and whatever a `GEM_VA` request holds, it stays so exactly when the request
is not such a clear. -/
theorem intervals_iff_not_clearWraps {s : State}
    (h : Transition.Reach Fresh step NoClearWraps s) : Intervals s ∧
      ∀ (env : IoctlEnv) (req : VaRequest) (r : Except Errno Unit) (s' : State),
        gemVaIoctl env req s = some (r, s') → (Intervals s' ↔ ¬ ClearWraps env req s) := by
  have ho := orderly_run h
  constructor
  · exact ho.tidy.intervals
  · intro env req r s' hr
    constructor
    · intro hint hw
      exact ho.not_intervals_of_clearWraps hr hw hint
    · intro hw
      exact (ho.gemVaIoctl hr hw).tidy.intervals

/-- A VM with one BO open. -/
def openedVm : State :=
  ⟨[], Function.update (Function.update (fun _ => none) none (some ⟨1, false, false, [], []⟩))
    (some 0) (some ⟨1, false, false, [], []⟩), [], ⟨[], [], [], []⟩, fun _ => ⟨0, 0⟩,
    fun _ => ⟨2 ^ 24, .system, false, fun _ => true, false, 0⟩⟩

/-- The answers of a run in which nothing fails. -/
def allOk : IoctlEnv :=
  ⟨some 0, .ok (), .ok (), true, true, true, true, false, ⟨0, fun _ _ => 0⟩, 0⟩

/-- Pages 64 to 200, mapped with `GSGPU_VM_DELAY_UPDATE`. -/
def mapPages : VaRequest :=
  ⟨vaOpMap, vmDelayUpdate, 64 * gpuPageSize, 0, 137 * gpuPageSize, by decide, by decide, by decide⟩

/-- A clear at page 150 of a size that ends at page 99. -/
def clearAround : VaRequest :=
  ⟨vaOpClear, vmDelayUpdate, 150 * gpuPageSize, 0, 2 ^ 64 - 50 * gpuPageSize, by decide,
    by decide, by decide⟩

/-- The VM after `mapPages`. -/
def mappedVm : State := vmBoInsertMap openedVm ⟨some 0, 64, 200, 0, 0⟩

theorem mappedVm_reach (good : State → Event → Prop) (hopen : ∀ s b, good s (.openBo true b))
    (hmap : good openedVm (.ioctl allOk mapPages)) :
    Transition.Reach Fresh step good mappedVm := by
  have hfresh : Transition.Reach Fresh step good { openedVm with
      boVas := Function.update (fun _ => none) none (some ⟨1, false, false, [], []⟩) } :=
    .start ⟨rfl, rfl, rfl, rfl, fun _ => rfl⟩
  have hopened : Transition.Reach Fresh step good openedVm :=
    .next (e := .openBo true 0) hfresh (hopen _ 0) rfl
  exact .next (e := .ioctl allOk mapPages) hopened hmap ⟨.ok (), rfl⟩

theorem mappedVm_reach_noClearWraps : Transition.Reach Fresh step NoClearWraps mappedVm := by
  apply mappedVm_reach
  · exact fun _ _ => trivial
  · intro hw
    have hop : mapPages.operation = vaOpClear := hw.1
    exact absurd hop (by decide)

theorem clearWraps_clearAround : ClearWraps allOk clearAround mappedVm := by
  have hwrap : ¬ NoWrap mappedVm (150 * gpuPageSize / gpuPageSize)
      (lastByte (150 * gpuPageSize) clearAround.mapSize / gpuPageSize) := by decide
  exact ⟨rfl, rfl, rfl, rfl, 150 * gpuPageSize, rfl, hwrap⟩

/-- The mapping of pages 64 to 200 is in order before the clear, and split into 64 to 149 and
100 to 200 by it. -/
theorem clear_leaves_overlap : ¬ ∀ s : State, Transition.Reach Fresh step (fun _ _ => True) s →
    ∀ (env : IoctlEnv) (req : VaRequest) (r : Except Errno Unit) (s' : State),
      gemVaIoctl env req s = some (r, s') → Intervals s → Intervals s' := by
  intro hall
  have hreach := mappedVm_reach_noClearWraps
  have ho := orderly_run hreach
  have hioctl : gemVaIoctl allOk clearAround mappedVm =
      some (.ok (), clearRange mappedVm 150 99) := rfl
  have hafter := hall mappedVm (hreach.mono fun _ _ _ => trivial) allOk clearAround _ _ hioctl
    ho.tidy.intervals
  exact ho.not_intervals_of_clearWraps hioctl clearWraps_clearAround hafter

theorem mappedVm_intervals : Intervals mappedVm ∧ ¬ Intervals (clearRange mappedVm 150 99) := by
  obtain ⟨hint, hreq⟩ := intervals_iff_not_clearWraps mappedVm_reach_noClearWraps
  constructor
  · exact hint
  · intro hafter
    exact (hreq allOk clearAround (.ok ()) _ rfl).mp hafter clearWraps_clearAround

end Gsgpu.Vm
