import Gsgpu.Isolation.Invariant

/-! A job is granted a VMID: it starts an epoch of the VMID, or joins the jobs that the last flush
serves. -/
namespace Gsgpu.Isolation
open Fifo
open Ids (VmidMgr Vmid Vm Covers Unfinished Kept AllKept Missed Grants Source Assigned IdleOn
  UpTo lastFlushPending)
open Machine

/-! ### A VMID is granted -/

/-- The epochs when a job gets its VMID for the epoch `c`. -/
def Epochs.join (E : Epochs) (K : User) (c : ℕ) : Epochs :=
  ⟨Function.update E.epoch K.fence c, Function.update E.current K.job.vmid c⟩

/-- What a job that is granted a VMID finds, and leaves in the records. -/
structure Joins (E : Epochs) (s : Machine) (m : VmidMgr) (K : User) (c : ℕ) : Prop where
  le : E.current K.job.vmid ≤ c
  others : ∀ v, v ≠ K.job.vmid → Weaker (s.mgr.ids v) (m.ids v)
  covers : ∀ j, Known s j → ¬ s.Finished j.fence →
    Covers (s.mgr.ids j.job.vmid).active j.fence → Covers (m.ids j.job.vmid).active j.fence
  user : Covers (m.ids K.job.vmid).active K.fence
  resets : (m.ids K.job.vmid).currentGpuResetCount = (s.mgr.ids K.job.vmid).currentGpuResetCount
  owner : (m.ids K.job.vmid).owner = some K.vm
  directory : (m.ids K.job.vmid).pdGpuAddr = K.job.vmPdAddr
  same : ∀ j, Known s j → j.job.vmid = K.job.vmid → E.epoch j.fence = c →
    j.vm = K.vm ∧ j.job.vmPdAddr = K.job.vmPdAddr
  ordered : ∀ j, Known s j → j.job.vmid = K.job.vmid → E.epoch j.fence < c → Ordered s j K
  waits : ∀ j ∈ s.waiting, j.job.vmid = K.job.vmid → E.epoch j.fence = c
  flushes : K.job.vmNeedsFlush = true → (m.ids K.job.vmid).lastFlush = none ∧
    (∀ j ∈ s.waiting, j.job.vmNeedsFlush = true → j.job.vmid ≠ K.job.vmid) ∧
    ∀ f, (m.ids K.job.vmid).flushedUpdates = some f →
      K.update = some f ∨ OnRing s K.fence.ring f
  shares : K.job.vmNeedsFlush = false → c = E.current K.job.vmid ∧
    (m.ids K.job.vmid).lastFlush = (s.mgr.ids K.job.vmid).lastFlush ∧
    (m.ids K.job.vmid).flushedUpdates = (s.mgr.ids K.job.vmid).flushedUpdates ∧
    ∃ L, Serves (E.join K c) s L K

section Grant
variable {ringOf : ℕ → ℕ} {E : Epochs} {s : Machine} {m : VmidMgr} {K : User} {c : ℕ}

/-- A job is not known before its grant. -/
theorem Orderly.ne_of_fresh (h : Orderly ringOf s) (hfresh : s.Fresh K.fence) {j : User}
    (hj : Known s j) : j.fence ≠ K.fence := by
  intro hc
  cases hj with
  | inl hw => exact hfresh.2 j hw (by rw [hc])
  | inr hib =>
    have hlt := hfresh.1 j.fence (h.ib _ j hib).2.1 (by rw [hc])
    rw [hc] at hlt
    omega

theorem Orderly.join_epoch (h : Orderly ringOf s) (hfresh : s.Fresh K.fence) {j : User}
    (hj : Known s j) : (E.join K c).epoch j.fence = E.epoch j.fence := by
  unfold Epochs.join
  exact Function.update_of_ne (h.ne_of_fresh hfresh hj) c E.epoch

theorem join_epoch_self (E : Epochs) (K : User) (c : ℕ) : (E.join K c).epoch K.fence = c := by
  unfold Epochs.join
  exact Function.update_self K.fence c E.epoch

theorem join_current_self (E : Epochs) (K : User) (c : ℕ) :
    (E.join K c).current K.job.vmid = c := by
  unfold Epochs.join
  exact Function.update_self K.job.vmid c E.current

theorem join_current_of_ne (E : Epochs) (c : ℕ) {v : ℕ} (hv : v ≠ K.job.vmid) :
    (E.join K c).current v = E.current v := by
  unfold Epochs.join
  exact Function.update_of_ne hv c E.current

/-- No packet of a job was committed before its grant. -/
theorem Orderly.not_mem_of_fresh (h : Orderly ringOf s) (hfresh : s.Fresh K.fence) {p : Packet}
    (hp : p.job = some K) (r : ℕ) : p ∉ s.log r := by
  intro hmem
  cases p with
  | vm j p =>
    cases hp
    exact h.ne_of_fresh hfresh (h.known_of_vm hmem).2 rfl
  | ib j =>
    cases hp
    have hr := (h.ib r K hmem).1
    subst hr
    exact h.ne_of_fresh hfresh (.inr hmem) rfl
  | finish t => cases hp

theorem Orderly.join (h : Orderly ringOf s) (hring : K.fence.ring = ringOf K.fence.entity)
    (hfresh : s.Fresh K.fence) (m : VmidMgr) :
    Orderly ringOf { s with mgr := m, waiting := K :: s.waiting } where
  nodup := h.nodup
  done_le := h.done_le
  ends := h.ends
  inOrder := h.inOrder
  ib := h.ib
  vm := h.vm
  flush := h.flush
  fence := h.fence
  waiting j hj := by
    cases List.mem_cons.mp hj with
    | inl hnew =>
      subst hnew
      exact ⟨hring, hfresh.1⟩
    | inr hold => exact h.waiting j hold
  apart := List.pairwise_cons.mpr ⟨fun j hj => (hfresh.2 j hj).symm, h.apart⟩
  snapshot := h.snapshot

/-- The jobs that are known after a grant. -/
theorem known_cons {j : User} (h : Known { s with mgr := m, waiting := K :: s.waiting } j) :
    j = K ∨ Known s j := by
  cases h with
  | inl hw =>
    cases List.mem_cons.mp hw with
    | inl hnew => exact .inl hnew
    | inr hold => exact .inr (.inl hold)
  | inr hib => exact .inr (.inr hib)

theorem Joins.current_le (hj : Joins E s m K c) (v : ℕ) : E.current v ≤ (E.join K c).current v := by
  by_cases hv : v = K.job.vmid
  · rw [hv, join_current_self]
    exact hj.le
  · rw [join_current_of_ne E c hv]

theorem Inv.join_grouped (h : Inv ringOf E s) (hfresh : s.Fresh K.fence) (hj : Joins E s m K c) :
    Grouped (E.join K c) { s with mgr := m, waiting := K :: s.waiting } where
  covers j hk := by
    obtain rfl | hold := known_cons hk
    · exact .inr hj.user
    · by_cases hfin : s.Finished j.fence
      · exact .inl hfin
      · exact .inr (hj.covers j hold hfin ((h.covers j hold).resolve_left hfin))
  epoch_le j hk := by
    obtain rfl | hold := known_cons hk
    · rw [join_epoch_self, join_current_self]
    · rw [h.join_epoch hfresh hold]
      exact (h.epoch_le j hold).trans (hj.current_le _)
  same j k hk hk' hv he := by
    obtain rfl | hold := known_cons hk
    · obtain rfl | hold' := known_cons hk'
      · exact ⟨rfl, rfl⟩
      · rw [join_epoch_self, h.join_epoch hfresh hold'] at he
        obtain ⟨hvm, hpd⟩ := hj.same k hold' hv.symm he.symm
        exact ⟨hvm.symm, hpd.symm⟩
    · obtain rfl | hold' := known_cons hk'
      · rw [join_epoch_self, h.join_epoch hfresh hold] at he
        exact hj.same j hold hv he
      · rw [h.join_epoch hfresh hold, h.join_epoch hfresh hold'] at he
        exact h.same j k hold hold' hv he
  ordered j k hk hk' hv he := by
    obtain rfl | hold := known_cons hk
    · exfalso
      rw [join_epoch_self] at he
      obtain rfl | hold' := known_cons hk'
      · rw [join_epoch_self] at he
        omega
      · rw [h.join_epoch hfresh hold'] at he
        have hle := h.epoch_le k hold'
        rw [← hv] at hle
        have := hj.le
        omega
    · rw [h.join_epoch hfresh hold] at he
      obtain rfl | hold' := known_cons hk'
      · rw [join_epoch_self] at he
        exact hj.ordered j hold hv he
      · rw [h.join_epoch hfresh hold'] at he
        exact h.ordered j k hold hold' hv he
  waits j hw := by
    cases List.mem_cons.mp hw with
    | inl hnew =>
      subst hnew
      rw [join_epoch_self, join_current_self]
    | inr hold =>
      rw [h.join_epoch hfresh (.inl hold)]
      by_cases hv : j.job.vmid = K.job.vmid
      · rw [hv, join_current_self]
        exact hj.waits j hold hv
      · rw [join_current_of_ne E c hv]
        exact h.waits j hold
  owned j hk he := by
    obtain rfl | hold := known_cons hk
    · refine ⟨?_, .inl hj.directory⟩
      intro vm hvm
      exact Option.some.inj (hvm.symm.trans hj.owner)
    · rw [h.join_epoch hfresh hold] at he
      by_cases hv : j.job.vmid = K.job.vmid
      · rw [hv, join_current_self] at he
        obtain ⟨hvm, hpd⟩ := hj.same j hold hv he
        refine ⟨?_, ?_⟩
        · intro vm howner
          dsimp only at howner
          rw [hv, hj.owner] at howner
          cases howner
          exact hvm.symm
        · left
          dsimp only
          rw [hv, hj.directory, hpd]
      · rw [join_current_of_ne E c hv] at he
        exact (hj.others _ hv).owned (h.owned j hold he)

theorem Inv.join (h : Inv ringOf E s) (hring : K.fence.ring = ringOf K.fence.entity)
    (hfresh : s.Fresh K.fence) (hvalid : K.job.vmPdAddr ≠ CommandRing.boInvalidOffset)
    (hj : Joins E s m K c) :
    Inv ringOf (E.join K c) { s with mgr := m, waiting := K :: s.waiting } where
  toOrderly := h.toOrderly.join hring hfresh m
  toGrouped := h.join_grouped hfresh hj
  resets v := by
    by_cases hv : v = K.job.vmid
    · rw [hv]
      exact hj.resets.trans (h.resets _)
    · exact (hj.others v hv).resets.trans (h.resets v)
  valid j hw := by
    cases List.mem_cons.mp hw with
    | inl hnew =>
      subst hnew
      exact hvalid
    | inr hold => exact h.valid j hold
  flusher j hw hflush := by
    cases List.mem_cons.mp hw with
    | inl hnew =>
      subst hnew
      obtain ⟨hlast, hnone, hupdates⟩ := hj.flushes hflush
      refine ⟨hlast, hupdates, ?_⟩
      intro k hk hkf hkv
      cases List.mem_cons.mp hk with
      | inl hnew => exact hnew
      | inr hold => exact absurd hkv (hnone k hold hkf)
    | inr hold =>
      have hw := h.flusher j hold hflush
      by_cases hv : j.job.vmid = K.job.vmid
      · have hK : K.job.vmNeedsFlush = false := by
          by_contra hc
          exact (hj.flushes (by simpa using hc)).2.1 j hold hflush hv
        obtain ⟨-, hlast, hupdates, -⟩ := hj.shares hK
        constructor
        · dsimp only
          rw [hv, hlast, ← hv]
          exact hw.lastFlush
        · dsimp only
          rw [hv, hupdates, ← hv]
          exact hw.updates
        · intro k hk hkf hkv
          cases List.mem_cons.mp hk with
          | inl hnew =>
            rw [hnew, hK] at hkf
            cases hkf
          | inr hold => exact hw.alone k hold hkf hkv
      · have hw' := hw.weaken (hj.others _ hv)
        refine ⟨hw'.lastFlush, hw'.updates, ?_⟩
        intro k hk hkf hkv
        cases List.mem_cons.mp hk with
        | inl hnew =>
          rw [hnew] at hkv
          exact absurd hkv.symm hv
        | inr hold => exact hw.alone k hold hkf hkv
  unflushed v hnone := by
    have hcons : (∃ j ∈ s.waiting, j.job.vmid = v ∧ j.job.vmNeedsFlush = true) →
        ∃ j ∈ K :: s.waiting, j.job.vmid = v ∧ j.job.vmNeedsFlush = true := by
      intro ⟨j, hw, hj⟩
      exact ⟨j, List.mem_cons_of_mem _ hw, hj⟩
    by_cases hv : v = K.job.vmid
    · subst hv
      cases hflush : K.job.vmNeedsFlush with
      | true => exact .inr ⟨K, List.mem_cons_self, rfl, hflush⟩
      | false =>
        obtain ⟨-, hlast, hupdates, -⟩ := hj.shares hflush
        dsimp only at hnone ⊢
        rw [hupdates]
        exact (h.unflushed _ (hlast.symm.trans hnone)).imp_right hcons
    · have hw := hj.others v hv
      dsimp only at hnone ⊢
      rw [hw.updates]
      exact (h.unflushed v (hw.lastFlush.symm.trans hnone)).imp_right hcons
  lastFlush v F hF := by
    by_cases hv : v = K.job.vmid
    · subst hv
      have hflush : K.job.vmNeedsFlush = false := by
        by_contra hc
        have hnone := (hj.flushes (by simpa using hc)).1
        cases hnone.symm.trans hF
      obtain ⟨hc, hlast, hupdates, -⟩ := hj.shares hflush
      obtain ⟨L, q, hL⟩ := h.lastFlush _ F (hlast.symm.trans hF)
      refine ⟨L, q, hL.eq, hL.mem, hL.vmid, ?_, ?_⟩
      · rw [h.join_epoch hfresh (h.known_of_vm hL.mem).2, join_current_self, hL.epoch, hc]
      · intro f hf
        exact hL.settled f (hupdates.symm.trans hf)
    · have hw := hj.others v hv
      obtain ⟨L, q, hL⟩ := h.lastFlush v F (hw.lastFlush.symm.trans hF)
      refine ⟨L, q, hL.eq, hL.mem, hL.vmid, ?_, (hL.weaken hw).settled⟩
      rw [h.join_epoch hfresh (h.known_of_vm hL.mem).2, join_current_of_ne E c hv, hL.epoch]
  own := h.own
  served j hk hflush := by
    obtain rfl | hold := known_cons hk
    · obtain ⟨-, -, -, L, hL⟩ := hj.shares hflush
      exact ⟨L, hL.mem, hL.vmid, hL.epoch, hL.before, hL.settled⟩
    · obtain ⟨L, hL⟩ := h.served j hold hflush
      refine ⟨L, hL.mem, hL.vmid, ?_, hL.before, hL.settled⟩
      rw [h.join_epoch hfresh (h.known_of_vm hL.mem).2, h.join_epoch hfresh hold, hL.epoch]
  register g hg := by
    obtain ⟨f, hf⟩ := h.register g hg
    refine ⟨f, hf.mem, hf.vmid, hf.pdReg, hf.tlb, ?_⟩
    intro g' hg' hv
    rw [h.join_epoch hfresh (h.known_of_vm (mem_log_of_executed hg')).2,
      h.join_epoch hfresh (h.known_of_vm (mem_log_of_executed hf.mem)).2]
    exact hf.last g' hg' hv

end Grant

/-! ### The VMID that is granted -/

section Found
variable {ringOf : ℕ → ℕ} {E : Epochs} {s : Machine} {signaled : Fence → Bool} {vm : Vm} {K L : User}
  {ring v q : ℕ} {f F : Fence}

/-- A job that waits has not ended. -/
theorem Orderly.waiting_unfinished (h : Orderly ringOf s) {j : User} (hj : j ∈ s.waiting) :
    ¬ s.Finished j.fence := by
  intro hfin
  have hlt := (h.waiting j hj).2 j.fence (mem_log_of_executed hfin) rfl
  omega

/-- What was flushed before the TLB is clean is on the ring of the flush. -/
theorem Settled.onRing (h : Settled s L f) (ho : Orderly ringOf s)
    (hfree : flushOf L ∈ s.executed L.fence.ring ∨ L.fence.ring = ring) : OnRing s ring f := by
  refine ⟨h.1, ?_⟩
  intro t ht hmem
  cases h.2 with
  | inl hclean =>
    obtain ⟨d, hd, hclean⟩ := hclean
    exact .inl (mem_take_mono (ho.snapshot _ d hd _) (hclean t ht hmem))
  | inr hawaited =>
    obtain ⟨hnot, hawaited⟩ := hawaited
    have hring := hfree.resolve_left hnot
    rw [← hring]
    exact (hawaited t ht hmem).imp_right And.left

/-- A flush of a job that has ended was executed. -/
theorem Orderly.flush_executed (h : Orderly ringOf s) (hmem : flushOf L ∈ s.log L.fence.ring)
    (hfin : s.Finished L.fence) : flushOf L ∈ s.executed L.fence.ring := by
  obtain ⟨hib, hbefore⟩ := h.vm _ L _ hmem
  exact hbefore _ (h.executed_of_finished hib hfin)

/-- The last flush, when it is not pending. -/
theorem Leads.free (h : Leads E s v F L q) (ho : Orderly ringOf s) (hs : s.Sound signaled)
    (hlast : (s.mgr.ids v).lastFlush = some F)
    (hp : lastFlushPending signaled ring (s.mgr.ids v) = false) :
    flushOf L ∈ s.executed L.fence.ring ∨ L.fence.ring = ring := by
  have hF := h.eq
  subst hF
  unfold lastFlushPending at hp
  rw [hlast] at hp
  by_cases hring : L.fence.ring = ring
  · exact .inr hring
  · left
    have hsig : signaled (.hw L.fence.ring q) = true := by
      simpa [Fence.context, hring] using hp
    obtain ⟨-, hbefore⟩ := ho.fence _ L _ _ h.mem
    exact hbefore _ (hs (.hw L.fence.ring q) hsig L h.mem)

/-- The jobs of an idle VMID that have not ended are scheduled on the ring. -/
theorem Inv.idle_known (h : Inv ringOf E s) (hs : s.Sound signaled)
    (hidle : IdleOn signaled ring (s.mgr.ids v)) {j : User} (hj : Known s j) (hv : j.job.vmid = v)
    (hfin : ¬ s.Finished j.fence) : j.fence.ring = ring ∧ .ib j ∈ s.log j.fence.ring := by
  subst hv
  have hcovers := (h.covers j hj).resolve_left hfin
  obtain ⟨u, hent, hseq, hring, hsched⟩ := hidle j.fence (h.unfinished hs hj hfin) hcovers
  have hu : .finish u ∈ s.log u.ring := hs (.scheduled u) hsched
  cases hj with
  | inl hw =>
    have hlt := (h.waiting j hw).2 u hu hent
    omega
  | inr hib =>
    refine ⟨?_, hib⟩
    rw [(h.ends _ _ (h.ib _ j hib).2.1).2, ← hent, ← (h.ends _ _ hu).2]
    exact hring

/-- No job waits with an idle VMID. -/
theorem Inv.idle_waiting (h : Inv ringOf E s) (hs : s.Sound signaled)
    (hidle : IdleOn signaled ring (s.mgr.ids v)) {j : User} (hj : j ∈ s.waiting) :
    j.job.vmid ≠ v := by
  intro hv
  have hib := (h.idle_known hs hidle (.inl hj) hv (h.waiting_unfinished hj)).2
  have hlt := (h.waiting j hj).2 j.fence (h.ib _ j hib).2.1 rfl
  omega

/-- What was flushed of an idle VMID is on the ring. -/
theorem Inv.idle_onRing (h : Inv ringOf E s) (hs : s.Sound signaled)
    (hidle : IdleOn signaled ring (s.mgr.ids v)) (hf : (s.mgr.ids v).flushedUpdates = some f) :
    OnRing s ring f := by
  cases hlast : (s.mgr.ids v).lastFlush with
  | none =>
    exfalso
    cases h.unflushed v hlast with
    | inl hnone => cases hnone.symm.trans hf
    | inr hwait =>
      obtain ⟨j, hj, hv, -⟩ := hwait
      exact h.idle_waiting hs hidle hj hv
  | some F =>
    obtain ⟨L, q, hL⟩ := h.lastFlush v F hlast
    apply (hL.settled f hf).onRing h.toOrderly
    by_cases hfin : s.Finished L.fence
    · exact .inl (h.flush_executed (h.fence _ L _ _ hL.mem).1 hfin)
    · exact .inr (h.idle_known hs hidle (h.known_of_vm hL.mem).2 hL.vmid hfin).1

/-- A job on the ring of a new job ends before that. -/
theorem Orderly.ordered_of_ring (h : Orderly ringOf s) (hfresh : s.Fresh K.fence) {j : User}
    (hring : j.fence.ring = K.fence.ring) (hmem : .finish j.fence ∈ s.log j.fence.ring) :
    Ordered s j K :=
  .inr ⟨hring, hmem, fun _ hp => before_of_not_mem (h.not_mem_of_fresh hfresh hp _)⟩

end Found

section Taken
variable {ringOf : ℕ → ℕ} {E : Epochs} {s : Machine} {signaled : Fence → Bool} {vm : Vm} {K : User}
  {m : VmidMgr} {id : Vmid} {c : ℕ}

/-- The grant of a job's VMID. -/
def GrantsTo (signaled : Fence → Bool) (vm : Vm) (m m' : VmidMgr) (K : User) : Prop :=
  Grants signaled vm K.fence.ring K.job.vmPdAddr K.update K.fence m m' K.job.vmNeedsFlush
    K.job.vmid

/-- What the records of a grant have in common. -/
theorem Inv.joins (h : Inv ringOf E s) (hs : s.Sound signaled)
    (hg : GrantsTo signaled vm s.mgr m K) (hvm : K.vm = vm.entity)
    (ha : Assigned vm K.job.vmPdAddr K.job.vmNeedsFlush (m.ids K.job.vmid) id)
    (hle : E.current K.job.vmid ≤ c)
    (hsame : ∀ j, Known s j → j.job.vmid = K.job.vmid → E.epoch j.fence = c →
      j.vm = K.vm ∧ j.job.vmPdAddr = K.job.vmPdAddr)
    (hordered : ∀ j, Known s j → j.job.vmid = K.job.vmid → E.epoch j.fence < c → Ordered s j K)
    (hwaits : ∀ j ∈ s.waiting, j.job.vmid = K.job.vmid → E.epoch j.fence = c)
    (hflushes : K.job.vmNeedsFlush = true →
      (∀ j ∈ s.waiting, j.job.vmNeedsFlush = true → j.job.vmid ≠ K.job.vmid) ∧
      ∀ f, (m.ids K.job.vmid).flushedUpdates = some f →
        K.update = some f ∨ OnRing s K.fence.ring f)
    (hshares : K.job.vmNeedsFlush = false → c = E.current K.job.vmid ∧
      (m.ids K.job.vmid).flushedUpdates = (s.mgr.ids K.job.vmid).flushedUpdates ∧
      ∃ L, Serves (E.join K c) s L K) :
    Joins E s (m.setId K.job.vmid id) K c where
  le := hle
  others v hv := by
    rw [Ids.setId_ids_of_ne _ _ hv]
    have hk := hg.kept v
    exact ⟨hk.lastFlush, hg.others v hv, hk.resetCount, .inl hk.owner, hk.pdGpuAddr⟩
  covers j hj hfin hc := by
    have hkept := (hg.kept j.job.vmid).covers _ (h.unfinished hs hj hfin) hc
    by_cases hv : j.job.vmid = K.job.vmid
    · rw [hv, Ids.setId_ids, ha.active, ← hv]
      exact hkept
    · rw [Ids.setId_ids_of_ne _ _ hv]
      exact hkept
  user := by
    rw [Ids.setId_ids, ha.active]
    exact hg.covers
  resets := by
    rw [Ids.setId_ids, ha.resetCount]
    exact (hg.kept _).resetCount
  owner := by
    rw [Ids.setId_ids, ha.owner, hvm]
  directory := by
    rw [Ids.setId_ids, ha.pdGpuAddr]
  same := hsame
  ordered := hordered
  waits := hwaits
  flushes hflush := by
    rw [Ids.setId_ids, ha.lastFlush, hflush, ha.updates]
    exact ⟨rfl, hflushes hflush⟩
  shares hflush := by
    obtain ⟨hc, hupdates, hL⟩ := hshares hflush
    rw [Ids.setId_ids, ha.lastFlush, hflush, ha.updates]
    exact ⟨hc, (hg.kept _).lastFlush, hupdates, hL⟩

/-- A VMID that is idle starts an epoch. -/
theorem Inv.joins_idle (h : Inv ringOf E s) (hs : s.Sound signaled) (hfresh : s.Fresh K.fence)
    (hg : GrantsTo signaled vm s.mgr m K) (hvm : K.vm = vm.entity)
    (ha : Assigned vm K.job.vmPdAddr K.job.vmNeedsFlush (m.ids K.job.vmid) id)
    (hflush : K.job.vmNeedsFlush = true)
    (hidle : IdleOn signaled K.fence.ring (s.mgr.ids K.job.vmid))
    (hupdates : (m.ids K.job.vmid).flushedUpdates = K.update ∨
      (m.ids K.job.vmid).flushedUpdates = (s.mgr.ids K.job.vmid).flushedUpdates) :
    Joins E s (m.setId K.job.vmid id) K (E.current K.job.vmid + 1) := by
  apply h.joins hs hg hvm ha (Nat.le_succ _)
  · intro j hj hv he
    have hle := h.epoch_le j hj
    rw [hv] at hle
    omega
  · intro j hj hv _
    by_cases hfin : s.Finished j.fence
    · exact .inl hfin
    · obtain ⟨hring, hib⟩ := h.idle_known hs hidle hj hv hfin
      exact h.ordered_of_ring hfresh hring (h.ib _ j hib).2.1
  · intro j hj hv
    exact absurd hv (h.idle_waiting hs hidle hj)
  · intro _
    refine ⟨fun j hj _ => h.idle_waiting hs hidle hj, ?_⟩
    intro f hf
    cases hupdates with
    | inl hnew => exact .inl (hnew.symm.trans hf)
    | inr hold => exact .inr (h.idle_onRing hs hidle (hold.symm.trans hf))
  · intro hc
    rw [hflush] at hc
    cases hc

/-- The flush that serves an earlier fence of a context. -/
theorem Settled.upTo {L : User} {f : Fence} (h : Settled s L f) {u : Fence}
    (hctx : u.context = f.context) (hseq : u.seqno ≤ f.seqno) : Settled s L u := by
  have hcovered : ∀ t, Covered t u → Covered t f :=
    fun t ht => ⟨ht.1.trans hctx, ht.2.trans hseq⟩
  refine ⟨?_, ?_⟩
  · intro t ht
    subst ht
    obtain ⟨t', rfl, hent⟩ := Ids.eq_finished_of_context hctx.symm
    obtain ⟨w, hent', hseq', hw⟩ := h.1 t' rfl
    have hle : t.seqno ≤ t'.seqno := hseq
    exact ⟨w, hent'.trans hent, hle.trans hseq', hw⟩
  · cases h.2 with
    | inl hclean =>
      obtain ⟨d, hd, hclean⟩ := hclean
      exact .inl ⟨d, hd, fun t ht => hclean t (hcovered t ht)⟩
    | inr hawaited => exact .inr ⟨hawaited.1, fun t ht => hawaited.2 t (hcovered t ht)⟩

/-- A job that joins the jobs that the last flush serves. -/
theorem Inv.joins_flushed (h : Inv ringOf E s) (hs : s.Sound signaled) (hfresh : s.Fresh K.fence)
    (hg : GrantsTo signaled vm s.mgr m K) (hvm : K.vm = vm.entity)
    (ha : Assigned vm K.job.vmPdAddr K.job.vmNeedsFlush (m.ids K.job.vmid) id)
    (howner : (s.mgr.ids K.job.vmid).owner = some vm.entity)
    (hpd : (s.mgr.ids K.job.vmid).pdGpuAddr = K.job.vmPdAddr) (hzero : K.job.vmPdAddr ≠ 0)
    (hflushed : Flushed signaled K.fence.ring (s.mgr.ids K.job.vmid) K.update)
    (hupdates : (m.ids K.job.vmid).flushedUpdates = (s.mgr.ids K.job.vmid).flushedUpdates) :
    Joins E s (m.setId K.job.vmid id) K (E.current K.job.vmid) := by
  obtain ⟨F, hlast⟩ := Option.ne_none_iff_exists'.mp (Ids.lastFlush_ne_none hflushed.1)
  obtain ⟨L, q, hL⟩ := h.lastFlush _ F hlast
  have hLknown := (h.known_of_vm hL.mem).2
  have hmem := (h.fence _ L _ _ hL.mem).1
  have hfree := hL.free h.toOrderly hs hlast hflushed.1
  apply h.joins hs hg hvm ha le_rfl
  · intro j hj hv he
    rw [← hv] at he
    obtain ⟨ho, hd⟩ := h.owned j hj he
    rw [hv] at ho hd
    refine ⟨?_, ?_⟩
    · rw [hvm]
      exact (ho _ howner).symm
    · rw [hpd] at hd
      exact (hd.resolve_right hzero).symm
  · intro j hj hv he
    rw [← hL.epoch] at he
    cases h.ordered j L hj hLknown (hv.trans hL.vmid.symm) he with
    | inl hfin => exact .inl hfin
    | inr hord =>
      obtain ⟨hring, hend, hbefore⟩ := hord
      cases hfree with
      | inl hexec =>
        left
        apply hbefore (flushOf L) rfl
        rw [hring]
        exact hexec
      | inr hsame => exact h.ordered_of_ring hfresh (hring.trans hsame) hend
  · intro j hj hv
    rw [← hv]
    exact h.waits j hj
  · intro _
    refine ⟨?_, ?_⟩
    · intro j hj hflush hv
      have hnone := (h.flusher j hj hflush).lastFlush
      rw [hv, hlast] at hnone
      cases hnone
    · intro f hf
      exact .inr ((hL.settled f (hupdates.symm.trans hf)).onRing h.toOrderly hfree)
  · intro _
    refine ⟨rfl, hupdates, L, ?_⟩
    constructor
    · exact hmem
    · exact hL.vmid
    · rw [h.join_epoch hfresh hLknown, join_epoch_self, hL.epoch]
    · cases hfree with
      | inl hexec => exact .inl hexec
      | inr hring =>
        exact .inr ⟨hring, fun _ hp => before_of_not_mem (h.not_mem_of_fresh hfresh hp _)⟩
    · intro u hu
      obtain ⟨f, hf, hctx, hlater⟩ := hflushed.2 u hu
      have hseq : u.seqno ≤ f.seqno := by
        unfold Fence.isLater at hlater
        simpa [hctx] using hlater
      exact (hL.settled f hf).upTo hctx hseq

theorem updatesLater_of_upTo {updates flushed : Option Fence} (h : UpTo updates flushed) :
    Ids.updatesLater updates flushed = false := by
  cases updates with
  | none => rfl
  | some u =>
    obtain ⟨f, hf, -, hlater⟩ := h u rfl
    subst hf
    exact hlater

/-- A grab that grants a VMID has found an idle one. -/
theorem exists_idle {env : Ids.Env} {ring i : ℕ} {f : Fence} {sync : Sync} {job : Ids.Job}
    (h : (Ids.vmidGrab env vm ring f m sync job).1 = .ok (some i)) :
    ∃ idle, (Ids.vmidGrabIdle env ring m sync).1 = .ok (some idle) := by
  unfold Ids.vmidGrab at h
  split at h
  · cases h
  · cases h
  · next idle _ _ hidle => exact ⟨idle, by rw [hidle]⟩

theorem Inv.grab (h : Inv ringOf E s) {env : Ids.Env} {fence : SchedFence} {sync : Sync}
    {job : CommandRing.Job} (hvalid : job.vmPdAddr ≠ CommandRing.boInvalidOffset)
    (hring : fence.ring = ringOf fence.entity) (hfresh : s.Fresh fence)
    (hs : s.Sound env.signaled) (hshares : SharesFlushed s (.grab env vm fence sync job)) :
    ∃ E', Inv ringOf E' (s.grab env vm fence sync job) := by
  cases hgrab : Ids.vmidGrab env vm fence.ring (.finished fence) s.mgr sync (Submit.grabJob job) with
  | mk r p =>
    obtain ⟨m', sync', job'⟩ := p
    obtain ⟨hmissed, hgranted⟩ := Ids.vmidGrab_grants hgrab
    unfold Machine.grab
    rw [hgrab]
    match r with
    | .error e => exact ⟨E, h.missed hs (hmissed fun i hi => by cases hi)⟩
    | .ok none => exact ⟨E, h.missed hs (hmissed fun i hi => by cases hi)⟩
    | .ok (some i) =>
      obtain ⟨m₁, job₁, hpd, hg, hassign⟩ := hgranted i rfl
      obtain ⟨⟨id, rfl, ha⟩, rfl⟩ := Ids.vmidAssign_eq hassign
      obtain ⟨idle, hidle⟩ := exists_idle (by rw [hgrab])
      have hshares := hshares idle hidle
      dsimp only
      set K : User := ⟨⟨Submit.grabbedJob job { job₁ with vmid := i, pasid := vm.pasid }, vm.entity,
        fence⟩, sync.lastVmUpdate⟩ with hK
      have hKpd : K.job.vmPdAddr = job.vmPdAddr := hpd
      have hgK : GrantsTo env.signaled vm s.mgr m₁ K := by
        unfold GrantsTo
        rw [hKpd]
        exact hg
      have haK : Assigned vm K.job.vmPdAddr K.job.vmNeedsFlush (m₁.ids K.job.vmid) id := ha
      have hjoin : ∀ {c}, Joins E s (m₁.setId K.job.vmid id) K c →
          ∃ E', Inv ringOf E' { s with mgr := m₁.setId K.job.vmid id, waiting := K :: s.waiting } := by
        intro c hj
        refine ⟨E.join K c, h.join hring hfresh ?_ hj⟩
        rw [hKpd]
        exact hvalid
      cases hg.source with
      | idle hflush hidle hupdates =>
        apply hjoin
        exact h.joins_idle hs hfresh hgK rfl haK hflush hidle (hupdates.imp_right And.left)
      | reserved hres howner hown hp hup hupdates =>
        rw [hres] at hshares
        have hzero := hshares howner hown ⟨hp, hup⟩
        apply hjoin
        exact h.joins_flushed hs hfresh hgK rfl haK howner (hown.trans hKpd.symm)
          (by rw [hKpd]; exact hzero) ⟨hp, hup⟩ hupdates
      | used hres hused _ hupdates =>
        rw [hres] at hshares
        obtain ⟨⟨hp, hup⟩, hzero⟩ := hshares i hused
        obtain ⟨howner, hown⟩ := Ids.usedVmid_owned hused
        rw [updatesLater_of_upTo hup, if_neg Bool.false_ne_true] at hupdates
        apply hjoin
        exact h.joins_flushed hs hfresh hgK rfl haK howner (hown.trans hKpd.symm)
          (by rw [hKpd]; exact hzero) ⟨hp, hup⟩ hupdates

end Taken

end Gsgpu.Isolation
