import Gsgpu.Ids.Manager
import Mathlib.Tactic.Set

/-! What a grab of a VMID leaves in the records: the VMID goes to a VM that has it already, or is
idle, and a job that is not yet scheduled keeps its VMID from being idle. -/
namespace Gsgpu.Ids

/-! ### Users of a VMID -/

/-- The sync object has the finished fence of the job, or a later one of its entity. -/
def Covers (a : Sync) (t : SchedFence) : Prop :=
  ∃ e ∈ a.fences, ∃ u, e.fence = .finished u ∧ u.entity = t.entity ∧ t.seqno ≤ u.seqno

/-- The job is not yet scheduled: the fences of an entity signal in order. -/
def Unscheduled (signaled : Fence → Bool) (t : SchedFence) : Prop :=
  ∀ u, u.entity = t.entity → t.seqno ≤ u.seqno →
    signaled (.finished u) = false ∧ signaled (.scheduled u) = false

/-- Neither the job nor a later one of its entity is known to be finished. -/
def Unfinished (signaled : Fence → Bool) (t : SchedFence) : Prop :=
  ∀ u, u.entity = t.entity → t.seqno ≤ u.seqno → signaled (.finished u) = false

/-- A job that uses the VMID is finished, or scheduled on the ring. -/
def IdleOn (signaled : Fence → Bool) (ring : ℕ) (id : Vmid) : Prop :=
  ∀ t, Unfinished signaled t → Covers id.active t →
    ∃ u, u.entity = t.entity ∧ t.seqno ≤ u.seqno ∧ u.ring = ring ∧ signaled (.scheduled u) = true

theorem Unscheduled.unfinished {signaled : Fence → Bool} {t : SchedFence}
    (h : Unscheduled signaled t) : Unfinished signaled t := fun u hent hseq => (h u hent hseq).1

/-- No job uses an idle VMID that is not yet scheduled. -/
theorem IdleOn.not_covers {signaled : Fence → Bool} {ring : ℕ} {id : Vmid}
    (h : IdleOn signaled ring id) {t : SchedFence} (ht : Unscheduled signaled t) :
    ¬ Covers id.active t := by
  intro hc
  obtain ⟨u, hent, hseq, -, hsched⟩ := h t ht.unfinished hc
  rw [(ht u hent hseq).2] at hsched
  cases hsched

section Users
variable {signaled : Fence → Bool} {ring : ℕ} {t : SchedFence}

/-- The search for an active user only drops entries. -/
theorem peekEntries_subset (es : List SyncEntry) :
    ∀ e ∈ (Sync.peekEntries signaled (some ring) es).2, e ∈ es := by
  induction es with
  | nil => simp [Sync.peekEntries]
  | cons e es ih =>
    unfold Sync.peekEntries
    dsimp only
    intro x hx
    split at hx
    · exact List.mem_cons_of_mem _ (ih x hx)
    · split at hx
      · split at hx
        · split at hx
          · cases List.mem_cons.mp hx with
            | inl heq => exact heq ▸ List.mem_cons_self
            | inr hmem => exact List.mem_cons_of_mem _ (ih x hmem)
          · exact hx
        · exact hx
      · exact hx

/-- It keeps every entry that is not signaled. -/
theorem mem_peekEntries (es : List SyncEntry) {e : SyncEntry} (he : e ∈ es)
    (hs : signaled e.fence = false) : e ∈ (Sync.peekEntries signaled (some ring) es).2 := by
  induction es with
  | nil => cases he
  | cons e' es ih =>
    unfold Sync.peekEntries
    dsimp only
    have hskip : e ∈ e' :: (Sync.peekEntries signaled (some ring) es).2 := by
      cases List.mem_cons.mp he with
      | inl heq => exact heq ▸ List.mem_cons_self
      | inr hmem => exact List.mem_cons_of_mem _ (ih hmem)
    split
    · next hsig =>
      cases List.mem_cons.mp he with
      | inl heq => rw [heq, hsig] at hs; cases hs
      | inr hmem => exact ih hmem
    · split
      · split
        · split
          · exact hskip
          · exact he
        · exact he
      · exact he

/-- When it finds no user, every entry is signaled, or is of a job that is scheduled on the
ring. -/
theorem of_peekEntries_none (es : List SyncEntry)
    (h : (Sync.peekEntries signaled (some ring) es).1 = none) {e : SyncEntry} (he : e ∈ es)
    {u : SchedFence} (hu : e.fence = .finished u) :
    signaled (.finished u) = true ∨ u.ring = ring ∧ signaled (.scheduled u) = true := by
  induction es with
  | nil => cases he
  | cons e' es ih =>
    unfold Sync.peekEntries at h
    dsimp only at h
    split at h
    · next hsig =>
      cases List.mem_cons.mp he with
      | inl heq => exact .inl (by rw [← hu, heq]; exact hsig)
      | inr hmem => exact ih h hmem
    · split at h
      · next s hring htodrm =>
        cases hring
        split at h
        · next hsame =>
          split at h
          · next hsched =>
            cases List.mem_cons.mp he with
            | inl heq =>
              subst heq
              rw [hu] at htodrm
              cases htodrm
              exact .inr ⟨hsame, hsched⟩
            | inr hmem => exact ih h hmem
          · cases h
        · cases h
      · cases h

theorem Covers.peek {a : Sync} (h : Covers a t) (ht : Unfinished signaled t) :
    Covers (a.peekFence signaled (some ring)).2 t := by
  obtain ⟨e, he, u, hu, hent, hseq⟩ := h
  refine ⟨e, mem_peekEntries a.fences he ?_, u, hu, hent, hseq⟩
  rw [hu]
  exact ht u hent hseq

theorem Covers.of_peek {a : Sync} (h : Covers (a.peekFence signaled (some ring)).2 t) :
    Covers a t := by
  obtain ⟨e, he, hu⟩ := h
  exact ⟨e, peekEntries_subset a.fences e he, hu⟩

/-- A VMID without an active user is idle. -/
theorem idleOn_of_peek {id : Vmid} (h : (id.active.peekFence signaled (some ring)).1 = none) :
    IdleOn signaled ring id := by
  intro t ht ⟨e, he, u, hu, hent, hseq⟩
  cases of_peekEntries_none id.active.fences h he hu with
  | inl hfin =>
    rw [ht u hent hseq] at hfin
    cases hfin
  | inr hsched => exact ⟨u, hent, hseq, hsched⟩

/-- A finished fence has its context from its entity. -/
theorem eq_finished_of_context {f : Fence} {u : SchedFence}
    (h : f.context = (Fence.finished u).context) : ∃ u', f = .finished u' ∧ u'.entity = u.entity := by
  cases f with
  | finished u' => exact ⟨u', rfl, FenceContext.finished.inj h⟩
  | scheduled _ => cases h
  | hw _ _ => cases h
  | array _ _ => cases h

/-- The later of two finished fences of an entity is kept. -/
theorem covers_later {u u' : SchedFence} {explicit : Bool} {es : List SyncEntry}
    (lu : Option Fence) {e : SyncEntry} (he : e.fence = .finished u) (hent : u'.entity = u.entity)
    (h : t.entity = u.entity ∧ (t.seqno ≤ u.seqno ∨ t.seqno ≤ u'.seqno)) :
    Covers ⟨(if e.fence.isLater (.finished u') then { e with explicit := explicit }
      else ⟨.finished u', explicit⟩) :: es, lu⟩ t := by
  have hlater : e.fence.isLater (.finished u') = true ↔ u'.seqno < u.seqno := by
    rw [he]
    simp only [Fence.isLater, Fence.context, Fence.seqno, hent, decide_true, Bool.true_and]
    exact decide_eq_true_iff
  refine ⟨_, List.mem_cons_self, ?_⟩
  split
  · next hl => exact ⟨u, he, h.1.symm, by have := hlater.mp hl; omega⟩
  · next hl =>
    have hle : ¬ u'.seqno < u.seqno := fun hlt => hl (hlater.mpr hlt)
    exact ⟨u', rfl, hent.trans h.1.symm, by omega⟩

theorem Covers.addLater {es es' : List SyncEntry} {f : Fence} {explicit : Bool}
    (lu : Option Fence) (hadd : Sync.addLater es f explicit = some es')
    (h : Covers ⟨es, lu⟩ t) : Covers ⟨es', lu⟩ t := by
  induction es generalizing es' with
  | nil => cases hadd
  | cons e' es ih =>
    obtain ⟨e, he, u, hu, hent, hseq⟩ := h
    unfold Sync.addLater at hadd
    split at hadd
    · next hctx =>
      cases hadd
      cases List.mem_cons.mp he with
      | inl heq =>
        subst heq
        obtain ⟨u', rfl, hent'⟩ := eq_finished_of_context (hctx.symm.trans (by rw [hu]))
        exact covers_later lu hu hent' ⟨hent.symm, .inl hseq⟩
      | inr hmem => exact ⟨e, List.mem_cons_of_mem _ hmem, u, hu, hent, hseq⟩
    · obtain ⟨es₁, hes₁, rfl⟩ := Option.map_eq_some_iff.mp hadd
      cases List.mem_cons.mp he with
      | inl heq => exact ⟨e', List.mem_cons_self, u, heq ▸ hu, hent, hseq⟩
      | inr hmem =>
        obtain ⟨e₁, he₁, hrest⟩ := ih hes₁ ⟨e, hmem, u, hu, hent, hseq⟩
        exact ⟨e₁, List.mem_cons_of_mem _ he₁, hrest⟩

theorem covers_addLater {es es' : List SyncEntry} {explicit : Bool} (lu : Option Fence)
    (hadd : Sync.addLater es (.finished t) explicit = some es') : Covers ⟨es', lu⟩ t := by
  induction es generalizing es' with
  | nil => cases hadd
  | cons e' es ih =>
    unfold Sync.addLater at hadd
    split at hadd
    · next hctx =>
      cases hadd
      obtain ⟨u, hu, hent⟩ := eq_finished_of_context hctx
      exact covers_later lu hu hent.symm ⟨hent.symm, .inr (Nat.le_refl _)⟩
    · obtain ⟨es₁, hes₁, rfl⟩ := Option.map_eq_some_iff.mp hadd
      obtain ⟨e₁, he₁, hrest⟩ := ih hes₁
      exact ⟨e₁, List.mem_cons_of_mem _ he₁, hrest⟩

/-- What `gsgpu_sync_fence` does to the entries. -/
theorem syncFence_fences (ok : Bool) (a : Sync) (f : Fence) (explicit : Bool) :
    (a.syncFence ok (some f) explicit).2.fences =
      match Sync.addLater a.fences f explicit with
      | some es => es
      | none => if ok then ⟨f, explicit⟩ :: a.fences else a.fences := by
  unfold Sync.syncFence
  dsimp only
  have hsame : (if Sync.isVmUpdate f then
      { a with lastVmUpdate := Sync.keepLater a.lastVmUpdate f } else a).fences = a.fences := by
    split <;> rfl
  rw [hsame]
  cases Sync.addLater a.fences f explicit with
  | some es => rfl
  | none => cases ok <;> simp [hsame]

theorem Covers.congr {a b : Sync} (h : Covers a t) (hab : b.fences = a.fences) : Covers b t := by
  unfold Covers
  rwa [hab]

theorem Covers.sync {a : Sync} (h : Covers a t) (ok : Bool) (f : Fence) (explicit : Bool) :
    Covers (a.syncFence ok (some f) explicit).2 t := by
  have hf := syncFence_fences ok a f explicit
  cases hadd : Sync.addLater a.fences f explicit with
  | some es =>
    rw [hadd] at hf
    exact (Covers.addLater a.lastVmUpdate hadd h).congr hf
  | none =>
    rw [hadd] at hf
    obtain ⟨e, he, hrest⟩ := h
    refine ⟨e, ?_, hrest⟩
    rw [hf]
    dsimp only
    split
    · exact List.mem_cons_of_mem _ he
    · exact he

/-- The job of a fence that was added uses the VMID. -/
theorem covers_sync {a : Sync} {ok explicit : Bool}
    (h : (a.syncFence ok (some (.finished t)) explicit).1 = true) :
    Covers (a.syncFence ok (some (.finished t)) explicit).2 t := by
  have hf := syncFence_fences ok a (.finished t) explicit
  cases hadd : Sync.addLater a.fences (.finished t) explicit with
  | some es =>
    rw [hadd] at hf
    exact (covers_addLater a.lastVmUpdate hadd).congr hf
  | none =>
    rw [hadd] at hf
    unfold Sync.syncFence at h
    dsimp only at h
    have hsame : (if Sync.isVmUpdate (.finished t) then
        { a with lastVmUpdate := Sync.keepLater a.lastVmUpdate (.finished t) } else a).fences =
          a.fences := by
      split <;> rfl
    rw [hsame, hadd] at h
    have hok : ok = true := by
      cases ok with
      | true => rfl
      | false => cases h
    rw [hok] at hf
    refine ⟨⟨.finished t, explicit⟩, ?_, t, rfl, rfl, Nat.le_refl _⟩
    rw [hok, hf]
    exact List.mem_cons_self

end Users

/-! ### One grab -/

/-- What a grab leaves as it was in the record of a VMID that it does not grant. -/
structure Kept (signaled : Fence → Bool) (id id' : Vmid) : Prop where
  owner : id'.owner = id.owner
  lastFlush : id'.lastFlush = id.lastFlush
  pasid : id'.pasid = id.pasid
  pasidMapping : id'.pasidMapping = id.pasidMapping
  resetCount : id'.currentGpuResetCount = id.currentGpuResetCount
  pdGpuAddr : id'.pdGpuAddr = id.pdGpuAddr ∨ id'.pdGpuAddr = 0
  covers : ∀ t, Unfinished signaled t → Covers id.active t → Covers id'.active t

namespace Kept
variable {signaled : Fence → Bool} {id id' id'' : Vmid}

theorem refl (signaled : Fence → Bool) (id : Vmid) : Kept signaled id id :=
  ⟨rfl, rfl, rfl, rfl, rfl, .inl rfl, fun _ _ h => h⟩

theorem trans (h : Kept signaled id id') (h' : Kept signaled id' id'') : Kept signaled id id'' where
  owner := h'.owner.trans h.owner
  lastFlush := h'.lastFlush.trans h.lastFlush
  pasid := h'.pasid.trans h.pasid
  pasidMapping := h'.pasidMapping.trans h.pasidMapping
  resetCount := h'.resetCount.trans h.resetCount
  pdGpuAddr := by
    cases h'.pdGpuAddr with
    | inl hsame =>
      rw [hsame]
      exact h.pdGpuAddr
    | inr hzero => exact .inr hzero
  covers t ht hc := h'.covers t ht (h.covers t ht hc)

/-- A user is added to the record that a grab is about to grant. -/
theorem addUser (h : Kept signaled id id') (ok : Bool) (f : Fence) (u : Option Fence) :
    Kept signaled id { id' with
      active := (id'.active.syncFence ok (some f) false).2, flushedUpdates := u } :=
  ⟨h.owner, h.lastFlush, h.pasid, h.pasidMapping, h.resetCount, h.pdGpuAddr,
    fun t ht hc => (h.covers t ht hc).sync ok f false⟩

end Kept

/-- Every record is kept. -/
def AllKept (signaled : Fence → Bool) (m m' : VmidMgr) : Prop :=
  ∀ v, Kept signaled (m.ids v) (m'.ids v)

theorem setId_ids (m : VmidMgr) (i : ℕ) (id : Vmid) : (m.setId i id).ids i = id := by
  unfold VmidMgr.setId
  exact Function.update_self i id m.ids

theorem setId_ids_of_ne (m : VmidMgr) {i v : ℕ} (id : Vmid) (hv : v ≠ i) :
    (m.setId i id).ids v = m.ids v := by
  unfold VmidMgr.setId
  exact Function.update_of_ne hv id m.ids

/-- The record of a VMID of a new device is as the zeroed device structure holds it. -/
theorem vmidMgrInit_ids (v : ℕ) : vmidMgrInit.ids v = Vmid.zero := by
  have hset : ∀ {m : VmidMgr} {id : Vmid} (i : ℕ), (∀ v, m.ids v = Vmid.zero) → id = Vmid.zero →
      ∀ v, (m.setId i id).ids v = Vmid.zero := by
    intro m id i hm hid v
    by_cases hv : v = i
    · rw [hv, setId_ids, hid]
    · rw [setId_ids_of_ne m id hv, hm]
  have hloop : ∀ (n i : ℕ) (m : VmidMgr), (∀ v, m.ids v = Vmid.zero) →
      ∀ v, (vmidMgrInitLoop n i m).ids v = Vmid.zero := by
    intro n
    induction n with
    | zero => exact fun _ _ hm => hm
    | succ n ih =>
      intro i m hm
      have hreset : ∀ v, (vmidReset m i).ids v = Vmid.zero := by
        apply hset i hm
        rw [hm]
        rfl
      apply ih
      apply hset i hreset
      rw [hreset]
      rfl
  exact hloop _ _ _ (fun _ => rfl) v

theorem vmidAllocReserved_ids {m m' : VmidMgr} {vm : ℕ} {r : Except Errno Unit}
    (h : vmidAllocReserved m vm = .done r m') : m'.ids = m.ids := by
  unfold vmidAllocReserved at h
  split at h
  · cases h
    rfl
  · dsimp only at h
    split at h
    · cases h
      rfl
    · split at h
      · cases h
      · cases h
        rfl

theorem vmidFreeReserved_ids (m : VmidMgr) (vm : ℕ) : (vmidFreeReserved m vm).ids = m.ids := by
  unfold vmidFreeReserved
  split
  · rfl
  · rfl

namespace AllKept
variable {signaled : Fence → Bool} {m m' m'' : VmidMgr}

theorem refl (signaled : Fence → Bool) (m : VmidMgr) : AllKept signaled m m :=
  fun _ => .refl signaled _

theorem trans (h : AllKept signaled m m') (h' : AllKept signaled m' m'') :
    AllKept signaled m m'' := fun v => (h v).trans (h' v)

theorem setId {i : ℕ} {id : Vmid} (h : Kept signaled (m.ids i) id) :
    AllKept signaled m (m.setId i id) := by
  intro v
  by_cases hv : v = i
  · subst hv
    rwa [setId_ids]
  · rw [setId_ids_of_ne m id hv]
    exact .refl signaled _

end AllKept

/-- What a grab that grants no VMID leaves as it was. -/
structure Missed (signaled : Fence → Bool) (m m' : VmidMgr) : Prop where
  kept : AllKept signaled m m'
  updates : ∀ v, (m'.ids v).flushedUpdates = (m.ids v).flushedUpdates

/-- What the search for an idle VMID does: entries of the sync objects are dropped. -/
structure Searched (signaled : Fence → Bool) (m m' : VmidMgr) : Prop
    extends Missed signaled m m' where
  pdGpuAddr : ∀ v, (m'.ids v).pdGpuAddr = (m.ids v).pdGpuAddr
  reservedVmid : m'.reservedVmid = m.reservedVmid
  idsLru : m'.idsLru = m.idsLru

namespace Missed
variable {signaled : Fence → Bool} {m m' m'' : VmidMgr}

theorem refl (signaled : Fence → Bool) (m : VmidMgr) : Missed signaled m m :=
  ⟨.refl signaled m, fun _ => rfl⟩

theorem trans (h : Missed signaled m m') (h' : Missed signaled m' m'') : Missed signaled m m'' :=
  ⟨h.kept.trans h'.kept, fun v => (h'.updates v).trans (h.updates v)⟩

theorem setId {i : ℕ} {id : Vmid} (h : Kept signaled (m.ids i) id)
    (hu : id.flushedUpdates = (m.ids i).flushedUpdates) : Missed signaled m (m.setId i id) where
  kept := .setId h
  updates v := by
    by_cases hv : v = i
    · subst hv
      rw [setId_ids]
      exact hu
    · rw [setId_ids_of_ne m id hv]

end Missed

theorem Searched.refl (signaled : Fence → Bool) (m : VmidMgr) : Searched signaled m m :=
  ⟨.refl signaled m, fun _ => rfl, rfl, rfl⟩

theorem Searched.trans {signaled : Fence → Bool} {m m' m'' : VmidMgr}
    (h : Searched signaled m m') (h' : Searched signaled m' m'') : Searched signaled m m'' :=
  ⟨h.toMissed.trans h'.toMissed, fun v => (h'.pdGpuAddr v).trans (h.pdGpuAddr v),
    h'.reservedVmid.trans h.reservedVmid, h'.idsLru.trans h.idsLru⟩

theorem searched_peek (signaled : Fence → Bool) (ring j : ℕ) (m : VmidMgr) :
    Searched signaled m (m.setId j { m.ids j with
      active := ((m.ids j).active.peekFence signaled (some ring)).2 }) where
  toMissed := .setId ⟨rfl, rfl, rfl, rfl, rfl, .inl rfl, fun _ ht hc => hc.peek ht⟩ rfl
  pdGpuAddr v := by
    by_cases hv : v = j
    · subst hv
      rw [setId_ids]
    · rw [setId_ids_of_ne m _ hv]
  reservedVmid := rfl
  idsLru := rfl

theorem findIdle_searched (signaled : Fence → Bool) (ring : ℕ) (l : List ℕ) :
    ∀ (m : VmidMgr), Searched signaled m (findIdle signaled ring l m).2 ∧
      ∀ i, (findIdle signaled ring l m).1 = some i →
        IdleOn signaled ring ((findIdle signaled ring l m).2.ids i) := by
  induction l with
  | nil => exact fun m => ⟨.refl signaled m, by simp [findIdle]⟩
  | cons j rest ih =>
    intro m
    have hset := searched_peek signaled ring j m
    unfold findIdle
    dsimp only
    split
    · next hnone =>
      refine ⟨hset, ?_⟩
      intro i hi
      cases hi
      rw [setId_ids]
      exact fun t ht hc => idleOn_of_peek hnone t ht hc.of_peek
    · exact ⟨hset.trans (ih _).1, (ih _).2⟩

/-- A job that has to wait gets no VMID. -/
theorem wait_ne (ok : Bool) (i : ℕ) :
    (if ok = true then .ok none else .error .enomem : Except Errno (Option ℕ)) ≠ .ok (some i) := by
  cases ok <;> simp

theorem vmidGrabIdle_searched {env : Env} {ring : ℕ} {m m' : VmidMgr} {sync sync' : Sync}
    {r : Except Errno (Option ℕ)} (h : vmidGrabIdle env ring m sync = (r, m', sync')) :
    Searched env.signaled m m' ∧
      ∀ i, r = .ok (some i) → IdleOn env.signaled ring (m'.ids i) ∧ sync' = sync := by
  have hfind := findIdle_searched env.signaled ring m.idsLru m
  unfold vmidGrabIdle at h
  split at h
  · cases h
    exact ⟨.refl _ _, fun i hi => absurd hi (wait_ne _ i)⟩
  · split at h
    · cases h
      exact ⟨.refl _ _, fun i hi => by cases hi⟩
    · split at h
      · next i m₁ hf =>
        cases h
        rw [hf] at hfind
        exact ⟨hfind.1, fun j hj => by cases hj; exact ⟨hfind.2 i rfl, rfl⟩⟩
      · next m₁ hf =>
        rw [hf] at hfind
        have hwait : ∀ (s : ℕ → ℕ) (w : ℕ → Option Fence),
            Searched env.signaled m { m₁ with seqno := s, vmidWait := w } := fun _ _ =>
          ⟨⟨hfind.1.kept, hfind.1.updates⟩, hfind.1.pdGpuAddr, hfind.1.reservedVmid,
            hfind.1.idsLru⟩
        dsimp only at h
        split at h
        · cases h
          exact ⟨hwait _ _, fun i hi => by cases hi⟩
        · cases h
          exact ⟨hwait _ _, fun i hi => absurd hi (wait_ne _ i)⟩

/-- The update of a job is not later than what was flushed, and of the same context. -/
def UpTo (updates flushed : Option Fence) : Prop :=
  ∀ u, updates = some u → ∃ f, flushed = some f ∧ u.context = f.context ∧ u.isLater f = false

/-- The VMID that `gsgpu_vmid_grab_used` reuses. -/
def usedVmid (m : VmidMgr) (vm : Vm) (pd : ℕ) : Option ℕ :=
  m.idsLru.reverse.find? fun i =>
    decide ((m.ids i).owner = some vm.entity) && decide ((m.ids i).pdGpuAddr = pd)

theorem usedVmid_owned {m : VmidMgr} {vm : Vm} {pd i : ℕ} (h : usedVmid m vm pd = some i) :
    (m.ids i).owner = some vm.entity ∧ (m.ids i).pdGpuAddr = pd := by
  have hfound := List.find?_some h
  simpa only [Bool.and_eq_true, decide_eq_true_eq] using hfound

theorem Searched.usedVmid {signaled : Fence → Bool} {m m' : VmidMgr} (h : Searched signaled m m')
    (vm : Vm) (pd : ℕ) : usedVmid m' vm pd = usedVmid m vm pd := by
  unfold Ids.usedVmid
  rw [h.idsLru]
  congr 1
  funext i
  rw [(h.kept i).owner, h.pdGpuAddr i]

/-- Why a VMID can be granted, and the flushed updates that are remembered then. -/
inductive Source (signaled : Fence → Bool) (vm : Vm) (ring pd : ℕ) (updates : Option Fence)
    (m : VmidMgr) (i : ℕ) (flush : Bool) (flushed : Option Fence) : Prop
  | idle : flush = true → IdleOn signaled ring (m.ids i) →
      flushed = updates ∨
        flushed = (m.ids i).flushedUpdates ∧ UpTo updates (m.ids i).flushedUpdates →
      Source signaled vm ring pd updates m i flush flushed
  | reserved : m.reservedVmid vm.entity = some i →
      (m.ids i).owner = some vm.entity → (m.ids i).pdGpuAddr = pd →
      lastFlushPending signaled ring (m.ids i) = false → UpTo updates (m.ids i).flushedUpdates →
      flushed = (m.ids i).flushedUpdates → Source signaled vm ring pd updates m i flush flushed
  | used : m.reservedVmid vm.entity = none → usedVmid m vm pd = some i →
      flush = (vm.useCpuForUpdate || (vm.useCpuForUpdate ||
        lastFlushPending signaled ring (m.ids i) ||
          updatesLater updates (m.ids i).flushedUpdates)) →
      flushed = (if updatesLater updates (m.ids i).flushedUpdates = true then updates
        else (m.ids i).flushedUpdates) → Source signaled vm ring pd updates m i flush flushed

/-- A successful grab, before the VMID is assigned. -/
structure Grants (signaled : Fence → Bool) (vm : Vm) (ring pd : ℕ) (updates : Option Fence)
    (t : SchedFence) (m m' : VmidMgr) (flush : Bool) (i : ℕ) : Prop where
  kept : AllKept signaled m m'
  others : ∀ v, v ≠ i → (m'.ids v).flushedUpdates = (m.ids v).flushedUpdates
  covers : Covers (m'.ids i).active t
  source : Source signaled vm ring pd updates m i flush (m'.ids i).flushedUpdates

section Grab
variable {env : Env} {vm : Vm} {ring : ℕ} {t : SchedFence} {m m' : VmidMgr} {job job' : Job}

theorem grants_setId {signaled : Fence → Bool} {pd : ℕ} {updates : Option Fence} {i : ℕ} {id : Vmid}
    {flush : Bool} (hk : Kept signaled (m.ids i) id) (hc : Covers id.active t)
    (hs : Source signaled vm ring pd updates m i flush id.flushedUpdates) :
    Grants signaled vm ring pd updates t m (m.setId i id) flush i where
  kept := .setId hk
  others v hv := by rw [setId_ids_of_ne m id hv]
  covers := by rwa [setId_ids]
  source := by rwa [setId_ids]

/-- The updates that a grab remembers, as one record. -/
theorem ite_user {c : Prop} [Decidable c] (id : Vmid) (a : Sync) (u : Option Fence) :
    (if c then { id with active := a, flushedUpdates := u } else { id with active := a }) =
      { id with active := a, flushedUpdates := if c then u else id.flushedUpdates } := by
  split <;> rfl

theorem lastFlush_ne_none {signaled : Fence → Bool} {id : Vmid}
    (h : lastFlushPending signaled ring id = false) : id.lastFlush ≠ none := by
  intro hnone
  unfold lastFlushPending at h
  rw [hnone] at h
  cases h

theorem vmidGrabUsed_grants {sync : Sync} {r : Except Errno (Option ℕ)}
    (hres : m.reservedVmid vm.entity = none)
    (h : vmidGrabUsed env vm ring (.finished t) m sync job = (r, m', job')) :
    job'.vmPdAddr = job.vmPdAddr ∧ (r = .ok none → m' = m) ∧
      ((∀ i, r ≠ .ok (some i)) → Missed env.signaled m m') ∧
      ∀ i, r = .ok (some i) → Grants env.signaled vm ring job.vmPdAddr sync.lastVmUpdate t m m'
        job'.vmNeedsFlush i := by
  unfold vmidGrabUsed at h
  dsimp only at h
  split at h
  · cases h
    exact ⟨rfl, fun _ => rfl, fun _ => .refl _ _, fun i hi => by cases hi⟩
  · next i hi =>
    have hadd := fun u => Kept.addUser (.refl env.signaled (m.ids i)) env.entryOk (.finished t) u
    split at h
    · cases h
      exact ⟨rfl, fun hc => (by cases hc), fun _ => .setId (hadd _) rfl, fun j hj => by cases hj⟩
    · next hok =>
      rw [ite_user] at h
      cases h
      refine ⟨rfl, fun hc => (by cases hc), fun hne => absurd rfl (hne i), fun j hj => ?_⟩
      cases hj
      apply grants_setId (hadd _)
      · exact covers_sync (by simpa using hok)
      · exact .used hres hi rfl rfl

variable (vm) in
theorem vmidTakeIdle_grants {i : ℕ} {sync : Sync} {r : Except Errno ℕ}
    (hidle : IdleOn env.signaled ring (m.ids i))
    (h : vmidTakeIdle env (.finished t) i m sync job = (r, m', job')) :
    job'.vmPdAddr = job.vmPdAddr ∧ ((∀ j, r ≠ .ok j) → Missed env.signaled m m') ∧
      ∀ j, r = .ok j → Grants env.signaled vm ring job.vmPdAddr sync.lastVmUpdate t m m'
        job'.vmNeedsFlush j := by
  unfold vmidTakeIdle at h
  dsimp only at h
  have hadd := fun u => Kept.addUser (.refl env.signaled (m.ids i)) env.entryOk (.finished t) u
  split at h
  · cases h
    exact ⟨rfl, fun _ => .setId (hadd _) rfl, fun j hj => by cases hj⟩
  · next hok =>
    cases h
    refine ⟨rfl, fun hne => absurd rfl (hne i), ?_⟩
    intro j hj
    cases hj
    apply grants_setId (hadd _)
    · exact covers_sync (by simpa using hok)
    · exact .idle rfl hidle (.inl rfl)

theorem forceFlush_kept {signaled : Fence → Bool} {flush : Bool} {id id' : Vmid}
    {tmp : Option Fence} (h : forceFlush signaled ring flush id = (tmp, id')) :
    Kept signaled id id' ∧ id'.flushedUpdates = id.flushedUpdates ∧
      (tmp = none → flush = true → IdleOn signaled ring id) := by
  unfold forceFlush at h
  cases flush with
  | true =>
    cases h
    refine ⟨⟨rfl, rfl, rfl, rfl, rfl, .inr rfl, fun t ht hc => hc.peek ht⟩, rfl, ?_⟩
    intro hnone _
    exact idleOn_of_peek hnone
  | false =>
    cases h
    exact ⟨.refl signaled id, rfl, fun _ hc => (by cases hc)⟩

/-- The updates that `gsgpu_vmid_grab_reserved` is left with: those of the job, or none because they
were flushed. -/
theorem reservedUpdates_cases (updates flushed : Option Fence) {rest : Option Fence}
    (h : rest = match updates, flushed with
      | some u, some f => if u.context = f.context && !u.isLater f then none else some u
      | u, _ => u) : rest.isSome = true ∧ rest = updates ∨ rest.isSome = false ∧ UpTo updates flushed := by
  cases updates with
  | none =>
    subst h
    exact .inr ⟨rfl, fun _ hu => (by cases hu)⟩
  | some u =>
    cases flushed with
    | none =>
      subst h
      exact .inl ⟨rfl, rfl⟩
    | some f =>
      dsimp only at h
      split at h
      · next hc =>
        simp only [Bool.and_eq_true, decide_eq_true_eq, Bool.not_eq_true'] at hc
        subst h
        refine .inr ⟨rfl, ?_⟩
        intro u' hu'
        cases hu'
        exact ⟨f, rfl, hc⟩
      · subst h
        exact .inl ⟨rfl, rfl⟩

theorem source_reserved {signaled : Fence → Bool} {pd i : ℕ} {updates rest : Option Fence}
    (hres : m.reservedVmid vm.entity = some i)
    (hcases : rest.isSome = true ∧ rest = updates ∨
      rest.isSome = false ∧ UpTo updates (m.ids i).flushedUpdates)
    (hidle : (decide ((m.ids i).owner ≠ some vm.entity) || decide (pd ≠ (m.ids i).pdGpuAddr) || rest.isSome ||
      lastFlushPending signaled ring (m.ids i)) = true → IdleOn signaled ring (m.ids i)) :
    Source signaled vm ring pd updates m i (vm.useCpuForUpdate ||
      (decide ((m.ids i).owner ≠ some vm.entity) || decide (pd ≠ (m.ids i).pdGpuAddr) || rest.isSome ||
        lastFlushPending signaled ring (m.ids i)))
      (if rest.isSome = true then rest else (m.ids i).flushedUpdates) := by
  cases hflush : (decide ((m.ids i).owner ≠ some vm.entity) || decide (pd ≠ (m.ids i).pdGpuAddr) ||
      rest.isSome || lastFlushPending signaled ring (m.ids i)) with
  | true =>
    apply Source.idle (Bool.or_true _) (hidle hflush)
    cases hcases with
    | inl hrest =>
      left
      rw [if_pos hrest.1, hrest.2]
    | inr hrest =>
      right
      rw [hrest.1]
      exact ⟨rfl, hrest.2⟩
  | false =>
    simp only [Bool.or_eq_false_iff, decide_eq_false_iff_not, not_not] at hflush
    obtain ⟨⟨⟨howner, hpd⟩, hnone⟩, hpending⟩ := hflush
    rw [hnone] at hcases ⊢
    have hupto := hcases.resolve_left fun hc => (by cases hc.1)
    exact .reserved hres howner hpd.symm hpending hupto.2 rfl

theorem vmidGrabReserved_grants {i : ℕ} {sync sync' : Sync} {r : Except Errno (Option ℕ)}
    (hres : m.reservedVmid vm.entity = some i)
    (h : vmidGrabReserved env vm ring (.finished t) i m sync job = (r, m', sync', job')) :
    job'.vmPdAddr = job.vmPdAddr ∧ ((∀ j, r ≠ .ok (some j)) → Missed env.signaled m m') ∧
      ∀ j, r = .ok (some j) → Grants env.signaled vm ring job.vmPdAddr sync.lastVmUpdate t m m'
        job'.vmNeedsFlush j := by
  unfold vmidGrabReserved at h
  dsimp only at h
  split at h
  · next f id hf =>
    obtain ⟨hforce, hsame, -⟩ := forceFlush_kept hf
    cases h
    exact ⟨rfl, fun _ => .setId hforce hsame, fun j hj => absurd hj (wait_ne _ j)⟩
  · next id hf =>
    obtain ⟨hforce, hsame, hidle⟩ := forceFlush_kept hf
    have hadd := fun u => hforce.addUser env.entryOk (.finished t) u
    split at h
    · cases h
      exact ⟨rfl, fun _ => .setId (hadd _) hsame, fun j hj => (by cases hj)⟩
    · next hok =>
      rw [ite_user] at h
      cases h
      refine ⟨rfl, fun hne => absurd rfl (hne i), fun j hj => ?_⟩
      cases hj
      apply grants_setId (hadd _)
      · exact covers_sync (by simpa using hok)
      · dsimp only
        rw [hsame]
        exact source_reserved hres (reservedUpdates_cases _ _ rfl) (hidle rfl)

/-- A granted VMID is the VM's already, or idle. -/
theorem Grants.free {signaled : Fence → Bool} {pd : ℕ} {updates : Option Fence} {flush : Bool} {i : ℕ}
    (hg : Grants signaled vm ring pd updates t m m' flush i) :
    (m.ids i).owner = some vm.entity ∨ IdleOn signaled ring (m.ids i) := by
  cases hg.source with
  | idle _ hidle _ => exact .inr hidle
  | reserved _ howner _ _ _ _ => exact .inl howner
  | used _ hused _ _ => exact .inl (usedVmid_owned hused).1

/-- A job that need not flush relies on the flush that the VM's record has. -/
theorem Grants.flushed {signaled : Fence → Bool} {pd : ℕ} {updates : Option Fence} {flush : Bool}
    {i : ℕ} (hg : Grants signaled vm ring pd updates t m m' flush i) (hflush : flush = false) :
    (m.ids i).owner = some vm.entity ∧ (m.ids i).lastFlush ≠ none := by
  cases hg.source with
  | idle htrue _ _ =>
    rw [hflush] at htrue
    cases htrue
  | reserved _ howner _ hpending _ _ => exact ⟨howner, lastFlush_ne_none hpending⟩
  | used _ hused hneeds _ =>
    have hnone := hneeds.symm.trans hflush
    simp only [Bool.or_eq_false_iff] at hnone
    exact ⟨(usedVmid_owned hused).1, lastFlush_ne_none hnone.2.1.2⟩

/-- The search for an idle VMID comes before the rest of a grab. -/
theorem Grants.after {signaled : Fence → Bool} {pd : ℕ} {updates : Option Fence} {m₁ : VmidMgr}
    {flush : Bool} {i : ℕ} (h : Searched signaled m m₁)
    (hg : Grants signaled vm ring pd updates t m₁ m' flush i) :
    Grants signaled vm ring pd updates t m m' flush i where
  kept := h.kept.trans hg.kept
  others v hv := (hg.others v hv).trans (h.updates v)
  covers := hg.covers
  source := by
    have hu := h.updates i
    have hk := h.kept i
    have hpend : lastFlushPending signaled ring (m₁.ids i) =
        lastFlushPending signaled ring (m.ids i) := by
      unfold lastFlushPending
      rw [hk.lastFlush]
    cases hg.source with
    | idle hflush hidle hf =>
      rw [hu] at hf
      exact .idle hflush (fun t ht hc => hidle t ht (hk.covers t ht hc)) hf
    | reserved hres howner hpd hp hup hf =>
      rw [h.reservedVmid] at hres
      rw [hk.owner] at howner
      rw [h.pdGpuAddr i] at hpd
      rw [hu] at hup hf
      exact .reserved hres howner hpd (hpend ▸ hp) hup hf
    | used hres hused hflush hf =>
      rw [h.reservedVmid] at hres
      rw [h.usedVmid] at hused
      rw [hpend, hu] at hflush
      rw [hu] at hf
      exact .used hres hused hflush hf

theorem Grants.moveTail {signaled : Fence → Bool} {pd : ℕ} {updates : Option Fence} {flush : Bool}
    {i : ℕ} (hg : Grants signaled vm ring pd updates t m m' flush i) :
    Grants signaled vm ring pd updates t m (moveTail m' i) flush i :=
  ⟨hg.kept, hg.others, hg.covers, hg.source⟩

/-- What a grab does to the records: it keeps them all, and then assigns the VMID it grants. -/
theorem vmidGrab_grants {sync sync' : Sync} {r : Except Errno (Option ℕ)}
    (h : vmidGrab env vm ring (.finished t) m sync job = (r, m', sync', job')) :
    ((∀ i, r ≠ .ok (some i)) → Missed env.signaled m m') ∧
      ∀ i, r = .ok (some i) → ∃ m₁ job₁, job₁.vmPdAddr = job.vmPdAddr ∧
        Grants env.signaled vm ring job.vmPdAddr sync.lastVmUpdate t m m₁ job₁.vmNeedsFlush i ∧
        (m', job') = vmidAssign vm i m₁ job₁ := by
  unfold vmidGrab at h
  cases hidle : vmidGrabIdle env ring m sync with
  | mk ri p =>
    obtain ⟨m₁, sync₁⟩ := p
    obtain ⟨hsearch, hfree⟩ := vmidGrabIdle_searched hidle
    have hmissed := hsearch.toMissed
    rw [hidle] at h
    match ri with
    | .error e =>
      cases h
      exact ⟨fun _ => hmissed, fun i hi => (by cases hi)⟩
    | .ok none =>
      cases h
      exact ⟨fun _ => hmissed, fun i hi => (by cases hi)⟩
    | .ok (some idle) =>
      obtain ⟨hon, hsync⟩ := hfree idle rfl
      subst hsync
      dsimp only at h
      cases hres : m₁.reservedVmid vm.entity with
      | some r₀ =>
        rw [hres] at h
        cases hgr : vmidGrabReserved env vm ring (.finished t) r₀ m₁ sync₁ job with
        | mk rg q =>
          obtain ⟨m₂, sync₂, job₂⟩ := q
          obtain ⟨hpd, hmiss, hg⟩ := vmidGrabReserved_grants hres hgr
          simp only [hgr] at h
          match rg with
          | .error e =>
            cases h
            exact ⟨fun _ => hmissed.trans (hmiss (by simp)), fun i hi => (by cases hi)⟩
          | .ok none =>
            cases h
            exact ⟨fun _ => hmissed.trans (hmiss (by simp)), fun i hi => (by cases hi)⟩
          | .ok (some i₁) =>
            cases h
            refine ⟨fun hne => absurd rfl (hne i₁), fun i hi => ?_⟩
            cases hi
            exact ⟨m₂, job₂, hpd, (hg i₁ rfl).after hsearch, rfl⟩
      | none =>
        rw [hres] at h
        cases hgu : vmidGrabUsed env vm ring (.finished t) m₁ sync₁ job with
        | mk rg q =>
          obtain ⟨m₂, job₂⟩ := q
          obtain ⟨hpd, hnone, hmiss, hg⟩ := vmidGrabUsed_grants hres hgu
          simp only [hgu] at h
          match rg with
          | .error e =>
            cases h
            exact ⟨fun _ => hmissed.trans (hmiss (by simp)), fun i hi => (by cases hi)⟩
          | .ok (some i₁) =>
            cases h
            refine ⟨fun hne => absurd rfl (hne i₁), fun i hi => ?_⟩
            cases hi
            exact ⟨moveTail m₂ i₁, job₂, hpd, ((hg i₁ rfl).after hsearch).moveTail, rfl⟩
          | .ok none =>
            have hsame := hnone rfl
            subst hsame
            cases hgt : vmidTakeIdle env (.finished t) idle m₂ sync₁ job₂ with
            | mk rt q' =>
              obtain ⟨m₃, job₃⟩ := q'
              obtain ⟨hpd₃, hmiss₃, hgt'⟩ := vmidTakeIdle_grants vm hon hgt
              simp only [hgt] at h
              match rt with
              | .error e =>
                cases h
                exact ⟨fun _ => hmissed.trans (hmiss₃ (by simp)), fun i hi => (by cases hi)⟩
              | .ok i₁ =>
                cases h
                refine ⟨fun hne => absurd rfl (hne i₁), fun i hi => ?_⟩
                cases hi
                rw [hpd] at hgt'
                exact ⟨moveTail m₃ i₁, job₃, hpd₃.trans hpd, ((hgt' i₁ rfl).after hsearch).moveTail,
                  rfl⟩

/-- What becomes of the record of a VMID that is granted. -/
structure Assigned (vm : Vm) (pd : ℕ) (flush : Bool) (id id' : Vmid) : Prop where
  owner : id'.owner = some vm.entity
  pdGpuAddr : id'.pdGpuAddr = pd
  active : id'.active = id.active
  lastFlush : id'.lastFlush = if flush = true then none else id.lastFlush
  updates : id'.flushedUpdates = id.flushedUpdates
  resetCount : id'.currentGpuResetCount = id.currentGpuResetCount
  pasid : id'.pasid = id.pasid
  pasidMapping : id'.pasidMapping = id.pasidMapping

theorem vmidAssign_eq {i : ℕ} (h : (m', job') = vmidAssign vm i m job) :
    (∃ id, m' = m.setId i id ∧ Assigned vm job.vmPdAddr job.vmNeedsFlush (m.ids i) id) ∧
      job' = { job with vmid := i, pasid := vm.pasid } := by
  unfold vmidAssign at h
  cases h
  refine ⟨⟨_, rfl, ?_⟩, rfl⟩
  cases job.vmNeedsFlush with
  | true => exact ⟨rfl, rfl, rfl, rfl, rfl, rfl, rfl, rfl⟩
  | false => exact ⟨rfl, rfl, rfl, rfl, rfl, rfl, rfl, rfl⟩

end Grab

end Gsgpu.Ids
