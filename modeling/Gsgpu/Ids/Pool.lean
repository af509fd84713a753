import Gsgpu.Ids.Manager
import Mathlib.Data.Set.Card

/-! Conservation of the VMID pool: whatever grabs, reservations and resets do, the LRU list and
the VMs' reservations share out the VMIDs `1 .. num_ids - 1`. -/
namespace Gsgpu.Ids

/-- An operation on the manager, with everything it is given and everything its outcome
depends on. -/
inductive Event
  | grab (env : Env) (vm : Vm) (ring : ℕ) (fence : Fence) (sync : Sync) (job : Job)
  | allocReserved (vm : ℕ)
  | freeReserved (vm : ℕ)
  | reset (vmid : ℕ)

/-- One operation; `none` when it takes the first entry of an empty `ids_lru`. -/
def step (m : VmidMgr) : Event → Option VmidMgr
  | .grab env vm ring fence sync job => some (vmidGrab env vm ring fence m sync job).2.1
  | .allocReserved vm =>
    match vmidAllocReserved m vm with
    | .done _ m' => some m'
    | .emptyLru => none
  | .freeReserved vm => some (vmidFreeReserved m vm)
  | .reset vmid => some (vmidReset m vmid)

/-- The LRU list and the reservations hold the VMIDs `1 .. num_ids - 1`, each once. -/
structure SharedOut (m : VmidMgr) : Prop where
  lru_nodup : m.idsLru.Nodup
  shared_out : ∀ i, (i ∈ m.idsLru ∨ ∃ vm, m.reservedVmid vm = some i) ↔ 1 ≤ i ∧ i < m.numIds
  lru_not_reserved : ∀ i ∈ m.idsLru, ∀ vm, m.reservedVmid vm ≠ some i
  reserved_once : ∀ i vm vm', m.reservedVmid vm = some i → m.reservedVmid vm' = some i → vm = vm'
  count : {vm | m.reservedVmid vm ≠ none}.encard = m.reservedVmidNum
  bound : m.reservedVmidNum ≤ vmMaxReservedVmid

/-- The VMIDs are shared out, and the next grab returns neither VMID 0 nor one that another VM
has reserved. -/
structure Pool (m : VmidMgr) : Prop extends SharedOut m where
  grab : ∀ env vm ring fence sync job i m' sync' job',
    vmidGrab env vm ring fence m sync job = (.ok (some i), m', sync', job') →
      job'.vmid = i ∧ i ≠ 0 ∧ ∀ vm', vm' ≠ vm.entity → m.reservedVmid vm' ≠ some i

/-- A grab rearranges the LRU list and rewrites VMID records; the pool stays the same. -/
structure SamePool (m m' : VmidMgr) : Prop where
  numIds : m'.numIds = m.numIds
  idsLru : m'.idsLru.Perm m.idsLru
  reservedVmid : m'.reservedVmid = m.reservedVmid
  reservedVmidNum : m'.reservedVmidNum = m.reservedVmidNum

namespace SamePool

theorem refl (m : VmidMgr) : SamePool m m := ⟨rfl, .rfl, rfl, rfl⟩

theorem trans {m₁ m₂ m₃ : VmidMgr} (h : SamePool m₁ m₂) (h' : SamePool m₂ m₃) :
    SamePool m₁ m₃ :=
  ⟨h'.numIds.trans h.numIds, h'.idsLru.trans h.idsLru, h'.reservedVmid.trans h.reservedVmid,
    h'.reservedVmidNum.trans h.reservedVmidNum⟩

theorem setId (m : VmidMgr) (i : ℕ) (v : Vmid) : SamePool m (m.setId i v) := ⟨rfl, .rfl, rfl, rfl⟩

theorem moveTail {m : VmidMgr} {i : ℕ} (h : i ∈ m.idsLru) : SamePool m (moveTail m i) :=
  ⟨rfl, (List.perm_append_singleton i _).trans (List.perm_cons_erase h).symm, rfl, rfl⟩

end SamePool

theorem findIdle_spec (signaled : Fence → Bool) (ring : ℕ) (l : List ℕ) (m : VmidMgr) :
    SamePool m (findIdle signaled ring l m).2 ∧
      ∀ i, (findIdle signaled ring l m).1 = some i → i ∈ l := by
  induction l generalizing m with
  | nil => exact ⟨.refl m, by simp [findIdle]⟩
  | cons j rest ih =>
    unfold findIdle
    simp only
    split
    · exact ⟨.setId _ _ _, fun i hi => by simp_all⟩
    · refine ⟨(SamePool.setId m j _).trans (ih _).1, fun i hi => ?_⟩
      exact List.mem_cons_of_mem _ ((ih _).2 i hi)

theorem vmidGrabIdle_spec {env : Env} {ring : ℕ} {m m' : VmidMgr} {sync sync' : Sync}
    {r : Except Errno (Option ℕ)} (h : vmidGrabIdle env ring m sync = (r, m', sync')) :
    SamePool m m' ∧ ∀ i, r = .ok (some i) → i ∈ m.idsLru := by
  unfold vmidGrabIdle at h
  have hfind := findIdle_spec env.signaled ring m.idsLru m
  split at h
  · obtain ⟨rfl, rfl, rfl⟩ := by simpa using h
    exact ⟨.refl m, fun i hi => by split at hi <;> simp at hi⟩
  · split at h
    · obtain ⟨rfl, rfl, rfl⟩ := by simpa using h
      exact ⟨.refl m, fun i hi => by simp at hi⟩
    · split at h
      · next i m₁ hf =>
        rw [hf] at hfind
        obtain ⟨rfl, rfl, rfl⟩ := by simpa using h
        exact ⟨hfind.1, fun j hj => hfind.2 j (by simpa using hj)⟩
      · next m₁ hf =>
        rw [hf] at hfind
        -- the two exits that wait or fail change only the ring's wait fence and its seqno
        have hwait : ∀ (s : ℕ → ℕ) (w : ℕ → Option Fence),
            SamePool m { m₁ with seqno := s, vmidWait := w } := fun s w =>
          hfind.1.trans ⟨rfl, .rfl, rfl, rfl⟩
        split at h
        · obtain ⟨rfl, rfl, rfl⟩ := by simpa using h
          exact ⟨hwait _ _, fun i hi => by simp at hi⟩
        · obtain ⟨rfl, rfl, rfl⟩ := by simpa using h
          exact ⟨hwait _ _, fun i hi => by split at hi <;> simp at hi⟩

theorem vmidGrabReserved_spec {env : Env} {vm : Vm} {ring i : ℕ} {fence : Fence}
    {m m' : VmidMgr} {sync sync' : Sync} {job job' : Job} {r : Except Errno (Option ℕ)}
    (h : vmidGrabReserved env vm ring fence i m sync job = (r, m', sync', job')) :
    SamePool m m' ∧ ∀ j, r = .ok (some j) → j = i := by
  unfold vmidGrabReserved at h
  simp only at h
  split at h
  · obtain ⟨rfl, rfl, rfl, rfl⟩ := by simpa using h
    exact ⟨.setId _ _ _, fun j hj => by split at hj <;> simp at hj⟩
  · split at h
    · obtain ⟨rfl, rfl, rfl, rfl⟩ := by simpa using h
      exact ⟨.setId _ _ _, fun j hj => by simp at hj⟩
    · obtain ⟨rfl, rfl, rfl, rfl⟩ := by simpa using h
      exact ⟨.setId _ _ _, fun j hj => by simpa using hj.symm⟩

theorem vmidGrabUsed_spec {env : Env} {vm : Vm} {ring : ℕ} {fence : Fence}
    {m m' : VmidMgr} {sync : Sync} {job job' : Job} {r : Except Errno (Option ℕ)}
    (h : vmidGrabUsed env vm ring fence m sync job = (r, m', job')) :
    SamePool m m' ∧ ∀ i, r = .ok (some i) → i ∈ m.idsLru := by
  unfold vmidGrabUsed at h
  simp only at h
  split at h
  · obtain ⟨rfl, rfl, rfl⟩ := by simpa using h
    exact ⟨.refl _, fun i hi => by simp at hi⟩
  · next i hi =>
    have hmem : i ∈ m.idsLru := List.mem_reverse.mp (List.mem_of_find?_eq_some hi)
    split at h
    · obtain ⟨rfl, rfl, rfl⟩ := by simpa using h
      exact ⟨.setId _ _ _, fun i hi => by simp at hi⟩
    · obtain ⟨rfl, rfl, rfl⟩ := by simpa using h
      refine ⟨.setId _ _ _, fun j hj => ?_⟩
      obtain rfl : i = j := by simpa using hj
      exact hmem

theorem vmidTakeIdle_spec {env : Env} {fence : Fence} {i : ℕ} {m m' : VmidMgr} {sync : Sync}
    {job job' : Job} {r : Except Errno ℕ}
    (h : vmidTakeIdle env fence i m sync job = (r, m', job')) :
    SamePool m m' ∧ ∀ j, r = .ok j → j = i := by
  unfold vmidTakeIdle at h
  simp only at h
  split at h
  · obtain ⟨rfl, rfl, rfl⟩ := by simpa using h
    exact ⟨.setId _ _ _, fun j hj => by simp at hj⟩
  · obtain ⟨rfl, rfl, rfl⟩ := by simpa using h
    exact ⟨.setId _ _ _, fun j hj => by simpa using hj.symm⟩

/-- What a grab does to the pool, and where the VMID it returns comes from. -/
theorem vmidGrab_spec {env : Env} {vm : Vm} {ring : ℕ} {fence : Fence} {m m' : VmidMgr}
    {sync sync' : Sync} {job job' : Job} {r : Except Errno (Option ℕ)}
    (h : vmidGrab env vm ring fence m sync job = (r, m', sync', job')) :
    SamePool m m' ∧ ∀ i, r = .ok (some i) → job'.vmid = i ∧
      (m.reservedVmid vm.entity = some i ∨ (m.reservedVmid vm.entity = none ∧ i ∈ m.idsLru)) := by
  unfold vmidGrab at h
  rcases hidle : vmidGrabIdle env ring m sync with ⟨ri, m₁, sync₁⟩
  obtain ⟨hpool, hidleMem⟩ := vmidGrabIdle_spec hidle
  rw [hidle] at h
  match ri with
  | .error e =>
    obtain ⟨rfl, rfl, -, -⟩ := by simpa using h
    exact ⟨hpool, fun i hi => by simp at hi⟩
  | .ok none =>
    obtain ⟨rfl, rfl, -, -⟩ := by simpa using h
    exact ⟨hpool, fun i hi => by simp at hi⟩
  | .ok (some idle) =>
    simp only [hpool.reservedVmid] at h
    cases hres : m.reservedVmid vm.entity with
    | some i₀ =>
      rcases hg : vmidGrabReserved env vm ring fence i₀ m₁ sync₁ job with ⟨rg, m₂, sync₂, job₂⟩
      obtain ⟨hpool₂, hrg⟩ := vmidGrabReserved_spec hg
      simp only [hres, hg] at h
      match rg with
      | .error e =>
        obtain ⟨rfl, rfl, -, -⟩ := by simpa using h
        exact ⟨hpool.trans hpool₂, fun i hi => by simp at hi⟩
      | .ok none =>
        obtain ⟨rfl, rfl, -, -⟩ := by simpa using h
        exact ⟨hpool.trans hpool₂, fun i hi => by simp at hi⟩
      | .ok (some i₁) =>
        obtain rfl := hrg i₁ rfl
        obtain ⟨rfl, rfl, -, rfl⟩ := by simpa using h
        refine ⟨(hpool.trans hpool₂).trans (.setId _ _ _), fun i hi => ?_⟩
        obtain rfl : i₁ = i := by simpa using hi
        exact ⟨rfl, .inl rfl⟩
    | none =>
      rcases hg : vmidGrabUsed env vm ring fence m₁ sync₁ job with ⟨rg, m₂, job₂⟩
      obtain ⟨hpool₂, hrg⟩ := vmidGrabUsed_spec hg
      simp only [hres, hg] at h
      match rg with
      | .error e =>
        obtain ⟨rfl, rfl, -, -⟩ := by simpa using h
        exact ⟨hpool.trans hpool₂, fun i hi => by simp at hi⟩
      | .ok (some i₁) =>
        have hmem : i₁ ∈ m₁.idsLru := hrg i₁ rfl
        obtain ⟨rfl, rfl, -, rfl⟩ := by simpa using h
        refine ⟨((hpool.trans hpool₂).trans (.moveTail (hpool₂.idsLru.mem_iff.mpr hmem))).trans
          (.setId _ _ _), fun i hi => ?_⟩
        obtain rfl : i₁ = i := by simpa using hi
        exact ⟨rfl, .inr ⟨rfl, hpool.idsLru.mem_iff.mp hmem⟩⟩
      | .ok none =>
        rcases ht : vmidTakeIdle env fence idle m₂ sync₁ job₂ with ⟨rt, m₃, job₃⟩
        obtain ⟨hpool₃, hrt⟩ := vmidTakeIdle_spec ht
        simp only [ht] at h
        match rt with
        | .error e =>
          obtain ⟨rfl, rfl, -, -⟩ := by simpa using h
          exact ⟨(hpool.trans hpool₂).trans hpool₃, fun i hi => by simp at hi⟩
        | .ok i₁ =>
          obtain rfl := hrt i₁ rfl
          have hmem : i₁ ∈ m.idsLru := hidleMem i₁ rfl
          have hpool₃' := (hpool.trans hpool₂).trans hpool₃
          obtain ⟨rfl, rfl, -, rfl⟩ := by simpa using h
          refine ⟨(hpool₃'.trans (.moveTail (hpool₃'.idsLru.mem_iff.mpr hmem))).trans
            (.setId _ _ _), fun i hi => ?_⟩
          obtain rfl : i₁ = i := by simpa using hi
          exact ⟨rfl, .inr ⟨rfl, hmem⟩⟩

/-- The invariant: the pool keeps its size. -/
structure PoolInv (m : VmidMgr) : Prop extends SharedOut m where
  numIds : m.numIds = gsgpuNumVmid

/-- A granted VMID is one of the pool's. -/
theorem vmidGrab_bounds {m m' : VmidMgr} (h : PoolInv m) {env : Env} {vm : Vm} {ring i : ℕ}
    {fence : Fence} {sync sync' : Sync} {job job' : Job}
    (hg : vmidGrab env vm ring fence m sync job = (.ok (some i), m', sync', job')) :
    1 ≤ i ∧ i < gsgpuNumVmid := by
  obtain ⟨-, hsome⟩ := vmidGrab_spec hg
  rw [← h.numIds]
  rcases (hsome i rfl).2 with hr | ⟨-, hl⟩
  · exact (h.shared_out i).mp (.inr ⟨_, hr⟩)
  · exact (h.shared_out i).mp (.inl hl)

theorem PoolInv.toPool {m : VmidMgr} (h : PoolInv m) : Pool m where
  toSharedOut := h.toSharedOut
  grab env vm ring fence sync job i m' sync' job' hg := by
    obtain ⟨-, hsome⟩ := vmidGrab_spec hg
    obtain ⟨hvmid, hsrc⟩ := hsome i rfl
    refine ⟨hvmid, ?_, fun vm' hne hres => ?_⟩
    · have := vmidGrab_bounds h hg
      omega
    · rcases hsrc with hr | ⟨-, hl⟩
      · exact hne (h.reserved_once i vm' vm.entity hres hr)
      · exact h.lru_not_reserved i hl vm' hres

theorem poolInv_init : PoolInv vmidMgrInit := by
  have hlru : vmidMgrInit.idsLru = [1, 2, 3] := rfl
  have hres : vmidMgrInit.reservedVmid = fun _ => none := rfl
  have hnum : vmidMgrInit.numIds = 4 := rfl
  refine ⟨⟨by rw [hlru]; decide, fun i => ?_, ?_, ?_, ?_, Nat.zero_le _⟩, rfl⟩
  · simp only [hlru, hres, hnum, List.mem_cons, List.not_mem_nil, reduceCtorEq, exists_false,
      or_false]
    omega
  · simp [hres]
  · simp [hres]
  · simp [hres, show vmidMgrInit.reservedVmidNum = 0 from rfl]

theorem PoolInv.samePool {m m' : VmidMgr} (h : PoolInv m) (hs : SamePool m m') : PoolInv m' := by
  obtain ⟨hn, hl, hr, hc⟩ := hs
  refine ⟨⟨?_, ?_, ?_, ?_, ?_, ?_⟩, by rw [hn, h.numIds]⟩
  · exact hl.nodup_iff.mpr h.lru_nodup
  · intro i; rw [hl.mem_iff, hr, hn]; exact h.shared_out i
  · intro i hi; rw [hr]; exact h.lru_not_reserved i (hl.mem_iff.mp hi)
  · rw [hr]; exact h.reserved_once
  · rw [hr, hc]; exact h.count
  · rw [hc]; exact h.bound

/-- At most one VMID is reserved, so two of the three are always on the list. -/
theorem PoolInv.lru_ne_nil {m : VmidMgr} (h : PoolInv m) : m.idsLru ≠ [] := by
  intro hnil
  have hnum : m.numIds = 4 := h.numIds
  have hres : ∀ i, 1 ≤ i → i < 4 → ∃ vm, m.reservedVmid vm = some i := by
    intro i h1 h4
    rcases (h.shared_out i).mpr ⟨h1, by omega⟩ with hl | hr
    · rw [hnil] at hl; cases hl
    · exact hr
  obtain ⟨a, ha⟩ := hres 1 (by omega) (by omega)
  obtain ⟨b, hb⟩ := hres 2 (by omega) (by omega)
  have hab : a ≠ b := by rintro rfl; rw [ha] at hb; cases hb
  have hsub : ({a, b} : Set ℕ) ⊆ {vm | m.reservedVmid vm ≠ none} := by
    rintro x (rfl | rfl)
    · simp [ha]
    · simp [hb]
  have htwo := Set.encard_le_encard hsub
  rw [Set.encard_pair hab, h.count] at htwo
  have hle : 2 ≤ m.reservedVmidNum := by exact_mod_cast htwo
  have := h.bound
  simp only [vmMaxReservedVmid] at this
  omega

theorem poolInv_allocReserved {m : VmidMgr} (h : PoolInv m) (vm : ℕ) :
    ∃ r m', vmidAllocReserved m vm = .done r m' ∧ PoolInv m' := by
  unfold vmidAllocReserved
  split
  · exact ⟨_, _, rfl, h⟩
  · next hnone =>
    have hvm : m.reservedVmid vm = none := by simpa using hnone
    simp only
    split
    · exact ⟨_, _, rfl, h.samePool ⟨rfl, .rfl, rfl, by simp⟩⟩
    · next hbound =>
      cases hl : m.idsLru with
      | nil => exact absurd hl h.lru_ne_nil
      | cons i rest =>
        refine ⟨_, _, rfl, ?_⟩
        have hi : i ∈ m.idsLru := by rw [hl]; exact List.mem_cons_self
        have hnodup := h.lru_nodup
        rw [hl, List.nodup_cons] at hnodup
        have hset : {v | Function.update m.reservedVmid vm (some i) v ≠ none} =
            insert vm {v | m.reservedVmid v ≠ none} := by
          ext v
          by_cases hv : v = vm
          · subst hv; simp
          · simp [hv]
        refine ⟨⟨hnodup.2, fun j => ?_, fun j hj v => ?_, fun j v v' hv hv' => ?_, ?_,
          by simpa using hbound⟩, h.numIds⟩
        · rw [← h.shared_out j, hl]
          constructor
          · rintro (hr | ⟨v, hv⟩)
            · exact .inl (List.mem_cons_of_mem _ hr)
            · by_cases hvm' : v = vm
              · subst hvm'
                obtain rfl : i = j := by simpa using hv
                exact .inl List.mem_cons_self
              · exact .inr ⟨v, by simpa [Function.update_of_ne hvm'] using hv⟩
          · rintro (hr | ⟨v, hv⟩)
            · rcases List.mem_cons.mp hr with rfl | hr
              · exact .inr ⟨vm, by simp⟩
              · exact .inl hr
            · refine .inr ⟨v, ?_⟩
              have hvm' : v ≠ vm := by rintro rfl; rw [hvm] at hv; cases hv
              simpa [Function.update_of_ne hvm'] using hv
        · by_cases hvm' : v = vm
          · subst hvm'
            simp only [Function.update_self, ne_eq, Option.some.injEq]
            rintro rfl
            exact hnodup.1 hj
          · simp only [Function.update_of_ne hvm']
            exact h.lru_not_reserved j (by rw [hl]; exact List.mem_cons_of_mem _ hj) v
        · by_cases h₁ : v = vm <;> by_cases h₂ : v' = vm
          · rw [h₁, h₂]
          · subst h₁
            obtain rfl : i = j := by simpa using hv
            exact absurd (by simpa [Function.update_of_ne h₂] using hv')
              (h.lru_not_reserved i hi v')
          · subst h₂
            obtain rfl : i = j := by simpa using hv'
            exact absurd (by simpa [Function.update_of_ne h₁] using hv)
              (h.lru_not_reserved i hi v)
          · exact h.reserved_once j v v' (by simpa [Function.update_of_ne h₁] using hv)
              (by simpa [Function.update_of_ne h₂] using hv')
        · simp only [hset]
          rw [Set.encard_insert_of_notMem (by simp [hvm]), h.count]
          push_cast
          rfl

theorem poolInv_freeReserved {m : VmidMgr} (h : PoolInv m) (vm : ℕ) :
    PoolInv (vmidFreeReserved m vm) := by
  unfold vmidFreeReserved
  cases hvm : m.reservedVmid vm with
  | none => exact h
  | some i =>
    have hnot : i ∉ m.idsLru := fun hi => h.lru_not_reserved i hi vm hvm
    have hold : ∀ v j, Function.update m.reservedVmid vm none v = some j →
        v ≠ vm ∧ m.reservedVmid v = some j := by
      intro v j hv
      have hne : v ≠ vm := by rintro rfl; simp at hv
      exact ⟨hne, by simpa [Function.update_of_ne hne] using hv⟩
    have hset : {v | m.reservedVmid v ≠ none} =
        insert vm {v | Function.update m.reservedVmid vm none v ≠ none} := by
      ext v
      by_cases hv : v = vm
      · subst hv; simp [hvm]
      · simp [hv]
    have hcount := h.count
    rw [hset, Set.encard_insert_of_notMem (by simp)] at hcount
    refine ⟨⟨List.nodup_cons.mpr ⟨hnot, h.lru_nodup⟩, fun j => ?_, fun j hj v hv => ?_,
      fun j v v' hv hv' => h.reserved_once j v v' (hold v j hv).2 (hold v' j hv').2, ?_,
      le_trans (Nat.sub_le _ _) h.bound⟩, h.numIds⟩
    · rw [← h.shared_out j]
      constructor
      · rintro (hr | ⟨v, hv⟩)
        · rcases List.mem_cons.mp hr with rfl | hr
          · exact .inr ⟨vm, hvm⟩
          · exact .inl hr
        · exact .inr ⟨v, (hold v j hv).2⟩
      · rintro (hr | ⟨v, hv⟩)
        · exact .inl (List.mem_cons_of_mem _ hr)
        · by_cases hvm' : v = vm
          · subst hvm'
            obtain rfl : i = j := Option.some.inj (hvm.symm.trans hv)
            exact .inl List.mem_cons_self
          · exact .inr ⟨v, by simpa [Function.update_of_ne hvm'] using hv⟩
    · obtain ⟨hne, hvj⟩ := hold v j hv
      rcases List.mem_cons.mp hj with hji | hj
      · exact hne (h.reserved_once j v vm hvj (hji ▸ hvm))
      · exact h.lru_not_reserved j hj v hvj
    · simp only
      generalize hc : {v | Function.update m.reservedVmid vm none v ≠ none}.encard = c at hcount ⊢
      rw [show m.reservedVmidNum = (m.reservedVmidNum - 1) + 1 from ?_] at hcount
      · push_cast at hcount
        exact (ENat.add_left_injective_of_ne_top (by simp)).eq_iff.mp hcount
      · have : m.reservedVmidNum ≠ 0 := by
          rintro h0
          rw [h0] at hcount
          simp at hcount
        omega

theorem poolInv_step {m : VmidMgr} (h : PoolInv m) (e : Event) :
    ∃ m', step m e = some m' ∧ PoolInv m' := by
  cases e with
  | grab env vm ring fence sync job =>
    exact ⟨_, rfl, h.samePool (vmidGrab_spec rfl).1⟩
  | allocReserved vm =>
    obtain ⟨r, m', hr, hinv⟩ := poolInv_allocReserved h vm
    exact ⟨m', by simp [step, hr], hinv⟩
  | freeReserved vm => exact ⟨_, rfl, poolInv_freeReserved h vm⟩
  | reset vmid => exact ⟨_, rfl, h.samePool (.setId _ _ _)⟩

theorem poolInv_run {m : VmidMgr} (h : PoolInv m) (events : List Event) :
    ∃ m', events.foldlM step m = some m' ∧ PoolInv m' := by
  induction events generalizing m with
  | nil => exact ⟨m, rfl, h⟩
  | cons e events ih =>
    obtain ⟨m₁, hstep, h₁⟩ := poolInv_step h e
    obtain ⟨m', hrun, h'⟩ := ih h₁
    exact ⟨m', by simp [List.foldlM_cons, hstep, hrun], h'⟩

/-- Any sequence of operations from `gsgpu_vmid_mgr_init` runs without taking the first entry
of an empty list, and leaves the pool shared out. -/
theorem pool_conserved (events : List Event) :
    ∃ m, events.foldlM step vmidMgrInit = some m ∧ Pool m := by
  obtain ⟨m, hrun, hinv⟩ := poolInv_run poolInv_init events
  exact ⟨m, hrun, hinv.toPool⟩

end Gsgpu.Ids
