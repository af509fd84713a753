import Gsgpu.Isolation.Invariant

/-! What a job commits on its ring, and the flush that it leaves in the record of its VMID. -/
namespace Gsgpu.Isolation
open Fifo
open Ids (VmidMgr Vmid Vm Covers Unfinished Kept AllKept Missed Grants Source Assigned IdleOn
  UpTo lastFlushPending)
open Machine

/-! ### Packets are committed -/

/-- The packets of a job before its end. -/
structure Body (t : SchedFence) (body : List Packet) : Prop where
  nodup : body.Nodup
  finish : ∀ u, .finish u ∉ body
  ib : ∀ j, .ib j ∈ body → j.fence = t
  vm : ∀ j p, .vm j p ∈ body → .ib j ∈ body ∧ Before body (.vm j p) (.ib j)
  flush : ∀ j v pd, .vm j (.vmFlush v pd) ∈ body → Packet.vm j (.vmFlush v pd) = flushOf j
  fence : ∀ j r q, .vm j (.fence r q) ∈ body → flushOf j ∈ body ∧
    Before body (flushOf j) (.vm j (.fence r q))

/-- A job is committed on its ring. -/
structure Commits (ringOf : ℕ → ℕ) (s s' : Machine) (t : SchedFence) (body : List Packet) : Prop
    extends Body t body where
  log : s'.log = (s.push t.ring (body ++ [.finish t])).log
  done : s'.done = s.done
  pdReg : s'.pdReg = s.pdReg
  tlb : s'.tlb = s.tlb
  waiting : s'.waiting.Sublist s.waiting
  others : ∀ j ∈ s'.waiting, j.fence.entity ≠ t.entity
  ring : t.ring = ringOf t.entity
  newest : ∀ u, .finish u ∈ s.log u.ring → u.entity = t.entity → u.seqno < t.seqno

section Commit
variable {ringOf : ℕ → ℕ} {s s' : Machine} {t : SchedFence} {body : List Packet}

namespace Commits

theorem log_ring (h : Commits ringOf s s' t body) :
    s'.log t.ring = s.log t.ring ++ (body ++ [.finish t]) := by
  rw [h.log]
  exact Function.update_self t.ring _ s.log

theorem log_of_ne (h : Commits ringOf s s' t body) {r : ℕ} (hr : r ≠ t.ring) :
    s'.log r = s.log r := by
  rw [h.log]
  exact Function.update_of_ne hr _ s.log

theorem mem_log (h : Commits ringOf s s' t body) {r : ℕ} {p : Packet} (hp : p ∈ s'.log r) :
    p ∈ s.log r ∨ r = t.ring ∧ (p ∈ body ∨ p = .finish t) := by
  by_cases hr : r = t.ring
  · subst hr
    rw [h.log_ring] at hp
    cases List.mem_append.mp hp with
    | inl hold => exact .inl hold
    | inr hnew =>
      rw [List.mem_append, List.mem_singleton] at hnew
      exact .inr ⟨rfl, hnew⟩
  · rw [h.log_of_ne hr] at hp
    exact .inl hp

theorem mem_of_body (h : Commits ringOf s s' t body) {p : Packet} (hp : p ∈ body) :
    p ∈ s'.log t.ring := by
  rw [h.log_ring]
  exact List.mem_append_right _ (List.mem_append_left _ hp)

theorem finish_mem (h : Commits ringOf s s' t body) : .finish t ∈ s'.log t.ring := by
  rw [h.log_ring]
  exact List.mem_append_right _ (List.mem_append_right _ (List.mem_singleton_self _))

/-- What a ring has executed stays as it was. -/
theorem executed (h : Commits ringOf s s' t body) (ho : Orderly ringOf s) (r : ℕ) :
    s'.executed r = s.executed r := by
  unfold Machine.executed
  rw [h.done]
  by_cases hr : r = t.ring
  · subst hr
    rw [h.log_ring]
    exact List.take_append_of_le_length (ho.done_le _)
  · rw [h.log_of_ne hr]

/-- No job ends with a new fence. -/
theorem finish_not_mem (h : Commits ringOf s s' t body) (ho : Orderly ringOf s) (r : ℕ) :
    .finish t ∉ s.log r := by
  intro hmem
  have hr := (ho.ends r t hmem).1
  subst hr
  have hlt := h.newest t hmem rfl
  omega

theorem ib_not_mem (h : Commits ringOf s s' t body) (ho : Orderly ringOf s) {j : User}
    (hj : .ib j ∈ body) (r : ℕ) : .ib j ∉ s.log r := by
  intro hmem
  have hend := (ho.ib r j hmem).2.1
  rw [h.ib j hj] at hend
  exact h.finish_not_mem ho r hend

theorem body_not_mem (h : Commits ringOf s s' t body) (ho : Orderly ringOf s) {p : Packet}
    (hp : p ∈ body) (r : ℕ) : p ∉ s.log r := by
  intro hmem
  cases p with
  | vm j p => exact h.ib_not_mem ho (h.vm j p hp).1 r (ho.vm r j p hmem).1
  | ib j => exact h.ib_not_mem ho hp r hmem
  | finish u => exact h.finish u hp

theorem later (h : Commits ringOf s s' t body) : Later s s' where
  log r := by
    by_cases hr : r = t.ring
    · subst hr
      exact ⟨_, h.log_ring⟩
    · exact ⟨[], (h.log_of_ne hr).trans (List.append_nil _).symm⟩
  done r := by rw [h.done]
  tlb v d hd := ⟨d, by rw [h.tlb]; exact hd, fun _ => le_rfl⟩
  newer u hu := by
    rcases h.mem_log hu with hold | ⟨-, hbody | hend⟩
    · exact .inl hold
    · exact absurd hbody (h.finish u)
    · cases hend
      exact .inr h.newest

/-- The order in the body is the order on the ring. -/
theorem before_body (h : Commits ringOf s s' t body) (ho : Orderly ringOf s) {a b : Packet}
    (ha : a ∈ body) (hb : b ∈ body) (hab : Before body a b) : Before (s'.log t.ring) a b := by
  rw [h.log_ring]
  exact (hab.append ha _).append_new (h.body_not_mem ho hb _)

theorem before_finish (h : Commits ringOf s s' t body) (ho : Orderly ringOf s) {a : Packet}
    (ha : a ∈ body) : Before (s'.log t.ring) a (.finish t) := by
  rw [h.log_ring]
  exact (before_append ha (h.finish t) _).append_new (h.finish_not_mem ho _)

theorem orderly (h : Commits ringOf s s' t body) (ho : Orderly ringOf s) : Orderly ringOf s' where
  nodup r := by
    by_cases hr : r = t.ring
    · subst hr
      rw [h.log_ring]
      apply (ho.nodup _).append
      · apply h.nodup.append (List.nodup_singleton _)
        intro p hp hend
        rw [List.mem_singleton.mp hend] at hp
        exact h.finish t hp
      · intro p hold hnew
        rw [List.mem_append, List.mem_singleton] at hnew
        cases hnew with
        | inl hbody => exact h.body_not_mem ho hbody _ hold
        | inr hend =>
          rw [hend] at hold
          exact h.finish_not_mem ho _ hold
    · rw [h.log_of_ne hr]
      exact ho.nodup r
  done_le r := by
    obtain ⟨more, hmore⟩ := h.later.log r
    rw [hmore, List.length_append, h.done]
    exact (ho.done_le r).trans (Nat.le_add_right _ _)
  ends r u hu := by
    rcases h.mem_log hu with hold | ⟨hr, hbody | hend⟩
    · exact ho.ends r u hold
    · exact absurd hbody (h.finish u)
    · cases hend
      rw [hr]
      exact ⟨rfl, h.ring⟩
  inOrder u w hu hw hent hseq := by
    rcases h.mem_log hw with hwold | ⟨hwr, hbody | hend⟩
    · rcases h.mem_log hu with huold | ⟨-, hbody | hend⟩
      · have hring : w.ring = u.ring := by
          rw [(ho.ends _ _ hwold).2, (ho.ends _ _ huold).2, hent]
        refine h.later.before ?_ (ho.inOrder u w huold hwold hent hseq)
        rw [hring]
        exact huold
      · exact absurd hbody (h.finish u)
      · cases hend
        have hlt := h.newest w hwold hent.symm
        omega
    · exact absurd hbody (h.finish w)
    · cases hend
      rcases h.mem_log hu with huold | ⟨-, hbody | hend⟩
      · have hring : u.ring = t.ring := by
          rw [(ho.ends _ _ huold).2, h.ring, hent]
        rw [h.log_ring]
        rw [hring] at huold
        exact before_append huold (h.finish_not_mem ho _) _
      · exact absurd hbody (h.finish u)
      · cases hend
        exact .refl _ _
  ib r j hj := by
    rcases h.mem_log hj with hold | ⟨hr, hbody | hend⟩
    · obtain ⟨hr, hend, hbefore⟩ := ho.ib r j hold
      exact ⟨hr, h.later.mem_log hend, h.later.before hold hbefore⟩
    · subst hr
      have hfence := h.ib j hbody
      rw [hfence]
      exact ⟨rfl, h.finish_mem, h.before_finish ho hbody⟩
    · cases hend
  vm r j p hp := by
    rcases h.mem_log hp with hold | ⟨hr, hbody | hend⟩
    · obtain ⟨hib, hbefore⟩ := ho.vm r j p hold
      exact ⟨h.later.mem_log hib, h.later.before hold hbefore⟩
    · subst hr
      obtain ⟨hib, hbefore⟩ := h.vm j p hbody
      exact ⟨h.mem_of_body hib, h.before_body ho hbody hib hbefore⟩
    · cases hend
  flush r j v pd hp := by
    rcases h.mem_log hp with hold | ⟨-, hbody | hend⟩
    · exact ho.flush r j v pd hold
    · exact h.flush j v pd hbody
    · cases hend
  fence r j r' q hp := by
    rcases h.mem_log hp with hold | ⟨hr, hbody | hend⟩
    · obtain ⟨hmem, hbefore⟩ := ho.fence r j r' q hold
      exact ⟨h.later.mem_log hmem, h.later.before hmem hbefore⟩
    · subst hr
      obtain ⟨hmem, hbefore⟩ := h.fence j r' q hbody
      exact ⟨h.mem_of_body hmem, h.before_body ho hmem hbody hbefore⟩
    · cases hend
  waiting j hj := by
    obtain ⟨hring, hnew⟩ := ho.waiting j (h.waiting.subset hj)
    refine ⟨hring, ?_⟩
    intro u hu hent
    rcases h.mem_log hu with hold | ⟨-, hbody | hend⟩
    · exact hnew u hold hent
    · exact absurd hbody (h.finish u)
    · cases hend
      exact absurd hent.symm (h.others j hj)
  apart := ho.apart.sublist h.waiting
  snapshot v d hd r := by
    rw [h.tlb] at hd
    rw [h.done]
    exact ho.snapshot v d hd r

end Commits

end Commit

/-! ### The rings advance -/

/-- What a flush leaves as it was in a record. -/
structure SameOwner (id id' : Vmid) : Prop where
  owner : id'.owner = id.owner
  pdGpuAddr : id'.pdGpuAddr = id.pdGpuAddr
  active : id'.active = id.active
  updates : id'.flushedUpdates = id.flushedUpdates
  resets : id'.currentGpuResetCount = id.currentGpuResetCount

theorem SameOwner.refl (id : Vmid) : SameOwner id id := ⟨rfl, rfl, rfl, rfl, rfl⟩

/-- A step that grants no VMID. -/
structure Advances (s s' : Machine) : Prop extends Later s s' where
  known : ∀ j, Known s' j → Known s j
  waiting : ∀ j ∈ s'.waiting, j ∈ s.waiting
  record : ∀ v, SameOwner (s.mgr.ids v) (s'.mgr.ids v)
  settled : ∀ L f, Settled s L f → Settled s' L f

section Advance
variable {ringOf : ℕ → ℕ} {E : Epochs} {s s' : Machine} {j L : User} {F : Fence} {v q : ℕ}

theorem Grouped.advance (h : Grouped E s) (ha : Advances s s') : Grouped E s' where
  covers j hj := by
    rw [(ha.record _).active]
    exact (h.covers j (ha.known j hj)).imp_left ha.finished
  epoch_le j hj := h.epoch_le j (ha.known j hj)
  same j k hj hk := h.same j k (ha.known j hj) (ha.known k hk)
  ordered j k hj hk hv he :=
    (h.ordered j k (ha.known j hj) (ha.known k hk) hv he).later ha.toLater
  waits j hj := h.waits j (ha.waiting j hj)
  owned j hj he := by
    rw [(ha.record _).owner, (ha.record _).pdGpuAddr]
    exact h.owned j (ha.known j hj) he

theorem Serves.advance (h : Serves E s L j) (ha : Advances s s') : Serves E s' L j where
  mem := ha.mem_log h.mem
  vmid := h.vmid
  epoch := h.epoch
  before := by
    cases h.before with
    | inl hexec => exact .inl (ha.mem_executed hexec)
    | inr hring =>
      obtain ⟨hsame, hbefore⟩ := hring
      have hmem := h.mem
      rw [hsame] at hmem
      exact .inr ⟨hsame, fun p hp => ha.before hmem (hbefore p hp)⟩
  settled f hf := ha.settled L f (h.settled f hf)

theorem Leads.advance (h : Leads E s v F L q) (ha : Advances s s') :
    Leads E s' v F L q where
  eq := h.eq
  mem := ha.mem_log h.mem
  vmid := h.vmid
  epoch := h.epoch
  settled f hf := ha.settled L f (h.settled f ((ha.record v).updates.symm.trans hf))

theorem WillFlush.advance (h : WillFlush s j) (ha : Advances s s')
    (hlast : (s'.mgr.ids j.job.vmid).lastFlush = (s.mgr.ids j.job.vmid).lastFlush) :
    WillFlush s' j where
  lastFlush := hlast.trans h.lastFlush
  updates f hf :=
    (h.updates f ((ha.record _).updates.symm.trans hf)).imp_right fun hring =>
      hring.later ha.toLater
  alone k hk := h.alone k (ha.waiting k hk)

/-- A step in which no VMID is granted, and none that waits for it is flushed. -/
theorem Inv.advance (h : Inv ringOf E s) (ho : Orderly ringOf s') (ha : Advances s s')
    (hlast : ∀ v, (s'.mgr.ids v).lastFlush = (s.mgr.ids v).lastFlush)
    (hwaiting : ∀ j ∈ s.waiting, j.job.vmNeedsFlush = true → j ∈ s'.waiting)
    (hown : ∀ j, .ib j ∈ s'.log j.fence.ring → j.job.vmNeedsFlush = true →
      .ib j ∈ s.log j.fence.ring)
    (hregister : ∀ g, flushOf g ∈ s'.executed g.fence.ring → ∃ f, Shown E s' g.job.vmid f) :
    Inv ringOf E s' where
  toOrderly := ho
  toGrouped := h.toGrouped.advance ha
  resets v := (ha.record v).resets.trans (h.resets v)
  valid j hj := h.valid j (ha.waiting j hj)
  flusher j hj hflush := (h.flusher j (ha.waiting j hj) hflush).advance ha (hlast _)
  unflushed v hnone := by
    rw [(ha.record v).updates]
    apply (h.unflushed v ((hlast v).symm.trans hnone)).imp_right
    intro ⟨j, hj, hv, hflush⟩
    exact ⟨j, hwaiting j hj hflush, hv, hflush⟩
  lastFlush v F hF := by
    obtain ⟨L, q, hL⟩ := h.lastFlush v F ((hlast v).symm.trans hF)
    exact ⟨L, q, hL.advance ha⟩
  own j hj hflush := by
    obtain ⟨hmem, hs⟩ := h.own j (hown j hj hflush) hflush
    exact ⟨ha.mem_log hmem, fun f hf => ha.settled j f (hs f hf)⟩
  served j hj hflush := by
    obtain ⟨L, hL⟩ := h.served j (ha.known j hj) hflush
    exact ⟨L, hL.advance ha⟩
  register := hregister

/-- The registers stay as they were. -/
theorem Shown.congr {f : User} (h : Shown E s v f) (hexec : ∀ r, s'.executed r = s.executed r)
    (hpd : s'.pdReg = s.pdReg) (htlb : s'.tlb = s.tlb) : Shown E s' v f where
  mem := by
    rw [hexec]
    exact h.mem
  vmid := h.vmid
  pdReg := by rw [hpd, h.pdReg]
  tlb := by
    rw [htlb]
    exact h.tlb
  last g hg hv := by
    rw [hexec] at hg
    exact h.last g hg hv

end Advance

section Committed
variable {ringOf : ℕ → ℕ} {E : Epochs} {s s' : Machine} {t : SchedFence} {body : List Packet}

theorem Commits.advances (h : Commits ringOf s s' t body) (ho : Orderly ringOf s)
    (hknown : ∀ j, .ib j ∈ body → j ∈ s.waiting)
    (hrecord : ∀ v, SameOwner (s.mgr.ids v) (s'.mgr.ids v)) : Advances s s' where
  toLater := h.later
  known j hj := by
    cases hj with
    | inl hw => exact .inl (h.waiting.subset hw)
    | inr hib =>
      rcases h.mem_log hib with hold | ⟨-, hbody | hend⟩
      · exact .inr hold
      · exact .inl (hknown j hbody)
      · cases hend
  waiting j hj := h.waiting.subset hj
  record := hrecord
  settled L f hs := by
    apply hs.later h.later
    rw [h.executed ho]
    exact id

/-- A job without a VMID is committed. -/
theorem Inv.work (h : Inv ringOf E s) {t : SchedFence} (hring : t.ring = ringOf t.entity)
    (hfresh : s.Fresh t) : Inv ringOf E (s.push t.ring [.finish t]) := by
  have hc : Commits ringOf s (s.push t.ring [.finish t]) t [] :=
    { nodup := List.nodup_nil
      finish := fun _ => List.not_mem_nil
      ib := fun _ hj => absurd hj List.not_mem_nil
      vm := fun _ _ hp => absurd hp List.not_mem_nil
      flush := fun _ _ _ hp => absurd hp List.not_mem_nil
      fence := fun _ _ _ hp => absurd hp List.not_mem_nil
      log := rfl
      done := rfl
      pdReg := rfl
      tlb := rfl
      waiting := List.Sublist.refl _
      others := hfresh.2
      ring := hring
      newest := hfresh.1 }
  have ho := h.toOrderly
  apply h.advance (hc.orderly ho)
  · exact hc.advances ho (fun j hj => absurd hj List.not_mem_nil) fun v => .refl _
  · exact fun _ => rfl
  · exact fun j hj _ => hj
  · intro j hj _
    rcases hc.mem_log hj with hold | ⟨-, hbody | hend⟩
    · exact hold
    · cases hbody
    · cases hend
  · intro g hg
    rw [hc.executed ho] at hg
    obtain ⟨f, hf⟩ := h.register g hg
    exact ⟨f, hf.congr (hc.executed ho) rfl rfl⟩

end Committed

/-! ### A job is scheduled -/

/-- What `gsgpu_vm_flush` writes for a job, and leaves in the records. -/
structure Writes (s : Machine) (j : User) (packets : List Submit.Packet) (m : VmidMgr) : Prop where
  nodup : packets.Nodup
  flush : ∀ v pd, .vmFlush v pd ∈ packets → v = j.job.vmid ∧ pd = j.job.vmPdAddr
  fence : ∀ r q, .fence r q ∈ packets → .vmFlush j.job.vmid j.job.vmPdAddr ∈ packets ∧
    Before packets (.vmFlush j.job.vmid j.job.vmPdAddr) (.fence r q)
  record : ∀ v, SameOwner (s.mgr.ids v) (m.ids v)
  others : ∀ v, v ≠ j.job.vmid → (m.ids v).lastFlush = (s.mgr.ids v).lastFlush
  flushed : j.job.vmNeedsFlush = true → ∃ q, .fence j.fence.ring q ∈ packets ∧
    (m.ids j.job.vmid).lastFlush = some (.hw j.fence.ring q)
  kept : j.job.vmNeedsFlush = false →
    (m.ids j.job.vmid).lastFlush = (s.mgr.ids j.job.vmid).lastFlush

section Write
variable {s : Machine} {env : Submit.Env} {j : User} {m : Submit.Machine}

/-- A record that `gsgpu_vm_flush` writes. -/
theorem sameOwner_setId {mgr : VmidMgr} {i : ℕ} {id : Vmid} (h : SameOwner (mgr.ids i) id) (v : ℕ) :
    SameOwner (mgr.ids v) ((mgr.setId i id).ids v) := by
  by_cases hv : v = i
  · subst hv
    rw [Ids.setId_ids]
    exact h
  · rw [Ids.setId_ids_of_ne _ _ hv]
    exact .refl _

theorem SameOwner.trans {id id' id'' : Vmid} (h : SameOwner id id') (h' : SameOwner id' id'') :
    SameOwner id id'' :=
  ⟨h'.owner.trans h.owner, h'.pdGpuAddr.trans h.pdGpuAddr, h'.active.trans h.active,
    h'.updates.trans h.updates, h'.resets.trans h.resets⟩

/-- The mapping of a pasid changes nothing of a flush. -/
theorem recordPasid_ids (m : Submit.Machine) (i pasid : ℕ) (f : Option Fence) (v : ℕ) :
    SameOwner (m.mgr.ids v) ((m.recordPasid i pasid f).mgr.ids v) ∧
      ((m.recordPasid i pasid f).mgr.ids v).lastFlush = (m.mgr.ids v).lastFlush := by
  unfold Submit.Machine.recordPasid Submit.Machine.setId
  constructor
  · apply sameOwner_setId
    exact ⟨rfl, rfl, rfl, rfl, rfl⟩
  · by_cases hv : v = i
    · subst hv
      rw [Ids.setId_ids]
    · rw [Ids.setId_ids_of_ne _ _ hv]

/-- A flush changes nothing else in its record, if the reset count is as it was. -/
theorem recordFlush_ids {m : Submit.Machine} {i : ℕ}
    (hreset : (m.mgr.ids i).currentGpuResetCount = m.gpuResetCounter) (f : Option Fence) (v : ℕ) :
    SameOwner (m.mgr.ids v) ((m.recordFlush i f).mgr.ids v) ∧
      ((m.recordFlush i f).mgr.ids v).lastFlush = if v = i then f else (m.mgr.ids v).lastFlush := by
  unfold Submit.Machine.recordFlush Submit.Machine.setId
  constructor
  · apply sameOwner_setId
    exact ⟨rfl, rfl, rfl, rfl, hreset.symm⟩
  · by_cases hv : v = i
    · subst hv
      rw [Ids.setId_ids, if_pos rfl]
    · rw [Ids.setId_ids_of_ne _ _ hv, if_neg hv]

/-- The packets of `gsgpu_vm_flush` before its fence. -/
theorem mem_flushPackets {p : Submit.Packet} {job : CommandRing.Job}
    (h : p ∈ m.flushPackets env job) :
    p = .vmBind job.vmid job.pasid ∨ p = .vmFlush job.vmid job.vmPdAddr := by
  unfold Submit.Machine.flushPackets at h
  split_ifs at h <;> simp at h <;> tauto

theorem nodup_flushPackets (m : Submit.Machine) (env : Submit.Env) (job : CommandRing.Job) :
    (m.flushPackets env job).Nodup := by
  unfold Submit.Machine.flushPackets
  split_ifs <;> simp

theorem fence_not_mem_flushPackets {job : CommandRing.Job} (r q : ℕ) :
    .fence r q ∉ m.flushPackets env job := by
  intro h
  cases mem_flushPackets h with
  | inl hc => cases hc
  | inr hc => cases hc

theorem flush_mem_flushPackets {job : CommandRing.Job} (h : m.vmFlushNeeded env job = true) :
    .vmFlush job.vmid job.vmPdAddr ∈ m.flushPackets env job := by
  unfold Submit.Machine.flushPackets
  rw [h, Bool.true_or, if_pos rfl]
  exact List.mem_append_right _ (List.mem_singleton_self _)

variable (env) in
/-- Without GPU resets, a flush is needed when the grab has asked for it. -/
theorem vmFlushNeeded_eq (hreset : (s.mgr.ids j.job.vmid).currentGpuResetCount = 0)
    (hvalid : j.job.vmPdAddr ≠ CommandRing.boInvalidOffset) :
    s.submit.vmFlushNeeded env j.job = j.job.vmNeedsFlush := by
  unfold Submit.Machine.vmFlushNeeded CommandRing.Engine.flushNeeded Submit.Machine.ringEnv
    Machine.submit
  simp [hreset, hvalid]

/-- A flush with its fence. -/
theorem writes_flush (hneed : s.submit.vmFlushNeeded env j.job = true) {q : ℕ} {mgr : VmidMgr}
    (hflush : j.job.vmNeedsFlush = true)
    (hrecord : ∀ v, SameOwner (s.mgr.ids v) (mgr.ids v) ∧ (mgr.ids v).lastFlush =
      if v = j.job.vmid then some (.hw j.fence.ring q) else (s.mgr.ids v).lastFlush) :
    Writes s j (s.submit.flushPackets env j.job ++ [.fence j.fence.ring q]) mgr where
  nodup := by
    apply (nodup_flushPackets _ _ _).append (List.nodup_singleton _)
    intro p hp hfence
    rw [List.mem_singleton.mp hfence] at hp
    exact fence_not_mem_flushPackets _ _ hp
  flush v pd hp := by
    cases List.mem_append.mp hp with
    | inl hflush =>
      cases mem_flushPackets hflush with
      | inl hc => cases hc
      | inr hc => cases hc; exact ⟨rfl, rfl⟩
    | inr hfence => cases List.mem_singleton.mp hfence
  fence r q' hp := by
    have hmem := flush_mem_flushPackets hneed
    refine ⟨List.mem_append_left _ hmem, ?_⟩
    exact before_append hmem (fence_not_mem_flushPackets r q') _
  record v := (hrecord v).1
  others v hv := by rw [(hrecord v).2, if_neg hv]
  flushed _ := by
    refine ⟨q, List.mem_append_right _ (List.mem_singleton_self _), ?_⟩
    rw [(hrecord _).2, if_pos rfl]
  kept hc := by
    rw [hflush] at hc
    cases hc

variable (env) in
/-- Packets without a fence. -/
theorem writes_bind {packets : List Submit.Packet} {mgr : VmidMgr}
    (hflush : j.job.vmNeedsFlush = false)
    (hpackets : packets = [] ∨ packets = s.submit.flushPackets env j.job)
    (hrecord : ∀ v, SameOwner (s.mgr.ids v) (mgr.ids v) ∧
      (mgr.ids v).lastFlush = (s.mgr.ids v).lastFlush) : Writes s j packets mgr := by
  have hmem : ∀ p ∈ packets,
      p = .vmBind j.job.vmid j.job.pasid ∨ p = .vmFlush j.job.vmid j.job.vmPdAddr := by
    intro p hp
    cases hpackets with
    | inl hnil =>
      rw [hnil] at hp
      cases hp
    | inr hsome =>
      rw [hsome] at hp
      exact mem_flushPackets hp
  constructor
  · cases hpackets with
    | inl hnil =>
      rw [hnil]
      exact List.nodup_nil
    | inr hsome =>
      rw [hsome]
      exact nodup_flushPackets _ _ _
  · intro v pd hp
    cases hmem _ hp with
    | inl hc => cases hc
    | inr hc => cases hc; exact ⟨rfl, rfl⟩
  · intro r q hp
    cases hmem _ hp with
    | inl hc => cases hc
    | inr hc => cases hc
  · exact fun v => (hrecord v).1
  · exact fun v _ => (hrecord v).2
  · intro hc
    rw [hflush] at hc
    cases hc
  · exact fun _ => (hrecord _).2

theorem vmFlush_writes (hreset : ∀ v, (s.mgr.ids v).currentGpuResetCount = 0)
    (hvalid : j.job.vmPdAddr ≠ CommandRing.boInvalidOffset) (henv : env.flushFence = .done)
    (pipe : Bool) : ∃ packets m,
      s.submit.vmFlush env j.fence.ring j.job pipe = (.ok packets, m) ∧ Writes s j packets m.mgr := by
  have hneed := vmFlushNeeded_eq env (hreset _) hvalid
  have hpasid : ∀ (b : Bool) (m : Submit.Machine) (f : Option Fence) (v : ℕ),
      SameOwner (m.mgr.ids v)
        ((if b = true then m.recordPasid j.job.vmid j.job.pasid f else m).mgr.ids v) ∧
      ((if b = true then m.recordPasid j.job.vmid j.job.pasid f else m).mgr.ids v).lastFlush =
        (m.mgr.ids v).lastFlush := by
    intro b m f v
    cases b with
    | true => exact recordPasid_ids m _ _ f v
    | false => exact ⟨.refl _, rfl⟩
  unfold Submit.Machine.vmFlush
  cases hflush : j.job.vmNeedsFlush with
  | true =>
    rw [hflush] at hneed
    rw [hneed, henv]
    refine ⟨_, _, rfl, ?_⟩
    apply writes_flush hneed hflush
    intro v
    obtain ⟨hsame, hlast⟩ := recordFlush_ids (m := { s.submit with syncSeq := _ }) (hreset _)
      (some (.hw j.fence.ring (s.submit.nextSeq j.fence.ring))) v
    obtain ⟨hsame', hlast'⟩ := hpasid _ _ _ v
    exact ⟨hsame.trans hsame', hlast'.trans hlast⟩
  | false =>
    rw [hflush] at hneed
    rw [hneed]
    cases pipe with
    | false => exact ⟨_, _, rfl, writes_bind env hflush (.inl rfl) fun v => ⟨.refl _, rfl⟩⟩
    | true =>
      exact ⟨_, _, rfl, writes_bind env hflush (.inr rfl) fun v => hpasid _ s.submit none v⟩

end Write

section Scheduled
variable {ringOf : ℕ → ℕ} {E : Epochs} {s s' : Machine} {j k : User} {packets : List Submit.Packet}
  {m : VmidMgr} {f : Fence}

/-- What a job commits before its end. -/
def bodyOf (j : User) (packets : List Submit.Packet) : List Packet := packets.map (.vm j) ++ [.ib j]

theorem vm_injective (j : User) : Function.Injective (Packet.vm j) := by
  intro p q h
  cases h
  rfl

theorem ib_not_mem_map (k j : User) (packets : List Submit.Packet) :
    Packet.ib k ∉ packets.map (.vm j) := by
  intro h
  obtain ⟨p, -, hp⟩ := List.mem_map.mp h
  cases hp

theorem mem_bodyOf_vm {p : Submit.Packet} (h : .vm k p ∈ bodyOf j packets) :
    k = j ∧ p ∈ packets := by
  cases List.mem_append.mp h with
  | inl hmap =>
    obtain ⟨p', hp', heq⟩ := List.mem_map.mp hmap
    cases heq
    exact ⟨rfl, hp'⟩
  | inr hib => cases List.mem_singleton.mp hib

theorem mem_bodyOf_ib (h : .ib k ∈ bodyOf j packets) : k = j := by
  cases List.mem_append.mp h with
  | inl hmap => exact absurd hmap (ib_not_mem_map k j packets)
  | inr hib =>
    cases List.mem_singleton.mp hib
    rfl

theorem vm_mem_bodyOf {p : Submit.Packet} (h : p ∈ packets) : .vm j p ∈ bodyOf j packets :=
  List.mem_append_left _ (List.mem_map_of_mem h)

theorem Writes.body (h : Writes s j packets m) : Body j.fence (bodyOf j packets) where
  nodup := by
    apply (h.nodup.map (vm_injective j)).append (List.nodup_singleton _)
    intro p hp hib
    rw [List.mem_singleton.mp hib] at hp
    exact ib_not_mem_map j j packets hp
  finish u hu := by
    cases List.mem_append.mp hu with
    | inl hmap =>
      obtain ⟨p, -, hp⟩ := List.mem_map.mp hmap
      cases hp
    | inr hib => cases List.mem_singleton.mp hib
  ib k hk := by rw [mem_bodyOf_ib hk]
  vm k p hp := by
    obtain ⟨rfl, hmem⟩ := mem_bodyOf_vm hp
    refine ⟨List.mem_append_right _ (List.mem_singleton_self _), ?_⟩
    exact before_append (List.mem_map_of_mem hmem) (ib_not_mem_map k k packets) _
  flush k v pd hp := by
    obtain ⟨rfl, hmem⟩ := mem_bodyOf_vm hp
    obtain ⟨hv, hpd⟩ := h.flush v pd hmem
    rw [hv, hpd]
    rfl
  fence k r q hp := by
    obtain ⟨rfl, hmem⟩ := mem_bodyOf_vm hp
    obtain ⟨hflush, hbefore⟩ := h.fence r q hmem
    refine ⟨vm_mem_bodyOf hflush, ?_⟩
    exact (hbefore.map (vm_injective k)).append (List.mem_map_of_mem hflush) _

/-- The updates that a job waits for are on its ring. -/
theorem Orderly.ready_onRing (h : Orderly ringOf s) (hready : s.Ready j) (hf : j.update = some f) :
    OnRing s j.fence.ring f := by
  constructor
  · intro u hu
    subst hu
    refine ⟨u, rfl, le_rfl, ?_⟩
    cases hready u hf with
    | inl hfin => exact mem_log_of_executed hfin
    | inr hring => exact hring.2
  · intro t ht hmem
    obtain ⟨u, rfl, hent⟩ := Ids.eq_finished_of_context ht.1.symm
    have hseq : t.seqno ≤ u.seqno := ht.2
    have hsame : ∀ {r}, .finish u ∈ s.log r → u.ring = t.ring := by
      intro r hu
      rw [(h.ends _ _ hmem).2, (h.ends _ _ hu).1, (h.ends _ _ hu).2, hent]
    cases hready u hf with
    | inl hfin =>
      left
      have hu := mem_log_of_executed hfin
      have hbefore := h.inOrder t u hmem hu hent.symm hseq
      unfold Machine.Finished
      rw [← hsame hu]
      exact hbefore _ hfin
    | inr hring =>
      obtain ⟨hj, hu⟩ := hring
      right
      rw [← hsame hu, hj]

/-- The flush that a job commits comes after the updates on its ring. -/
theorem Commits.settled (h : Commits ringOf s s' j.fence (bodyOf j packets)) (ho : Orderly ringOf s)
    (hmem : flushOf j ∈ bodyOf j packets) (hf : OnRing s j.fence.ring f) : Settled s' j f := by
  have hnot := h.body_not_mem ho hmem
  refine ⟨hf.1.later h.later, .inr ⟨?_, ?_⟩⟩
  · rw [h.executed ho]
    exact fun hc => hnot _ (mem_log_of_executed hc)
  · intro t ht hend
    have hold := hf.1.old h.later ht hend
    cases hf.2 t ht hold with
    | inl hfin => exact .inl (h.later.finished hfin)
    | inr hring =>
      refine .inr ⟨hring, ?_⟩
      rw [hring, h.log_ring]
      rw [hring] at hold
      exact before_append hold (hnot _) _

/-- The other waiting jobs are of other entities. -/
theorem Orderly.apart_of_mem (h : Orderly ringOf s) {before after : List User}
    (hw : s.waiting = before ++ j :: after) : ∀ k ∈ before ++ after,
      k.fence.entity ≠ j.fence.entity := by
  have hapart := h.apart
  rw [hw, List.pairwise_append, List.pairwise_cons] at hapart
  obtain ⟨-, ⟨hafter, -⟩, hbefore⟩ := hapart
  intro k hk
  cases List.mem_append.mp hk with
  | inl hleft => exact hbefore k hleft j List.mem_cons_self
  | inr hright => exact (hafter k hright).symm

theorem mem_of_ne {before after : List User} (hw : s.waiting = before ++ j :: after)
    (hk : k ∈ s.waiting) (hne : k ≠ j) : k ∈ before ++ after := by
  rw [hw, List.mem_append, List.mem_cons] at hk
  rw [List.mem_append]
  exact hk.imp_right fun h => h.resolve_left hne

/-- A job that flushes its VMID is scheduled. -/
theorem Inv.schedule_flush (h : Inv ringOf E s)
    (hc : Commits ringOf s s' j.fence (bodyOf j packets)) (ha : Advances s s')
    (hw : Writes s j packets s'.mgr) (hj : j ∈ s.waiting) (hready : s.Ready j)
    (hwaiting : ∀ k ∈ s.waiting, k ≠ j → k ∈ s'.waiting) (hflush : j.job.vmNeedsFlush = true) :
    Inv ringOf E s' := by
  have ho := h.toOrderly
  obtain ⟨q, hfence, hlast⟩ := hw.flushed hflush
  have hmem : flushOf j ∈ bodyOf j packets := vm_mem_bodyOf (hw.fence _ q hfence).1
  have hwill := h.flusher j hj hflush
  have hupdate : ∀ f, j.update = some f → Settled s' j f :=
    fun f hf => hc.settled ho hmem (ho.ready_onRing hready hf)
  constructor
  · exact hc.orderly ho
  · exact h.toGrouped.advance ha
  · exact fun v => (ha.record v).resets.trans (h.resets v)
  · exact fun k hk => h.valid k (ha.waiting k hk)
  · intro k hk hkf
    have hold := ha.waiting k hk
    apply (h.flusher k hold hkf).advance ha
    apply hw.others
    intro hv
    apply hc.others k hk
    rw [hwill.alone k hold hkf hv]
  · intro v hnone
    have hv : v ≠ j.job.vmid := by
      intro hv
      rw [hv, hlast] at hnone
      cases hnone
    rw [(ha.record v).updates]
    apply (h.unflushed v ((hw.others v hv).symm.trans hnone)).imp_right
    intro ⟨k, hk, hkv, hkf⟩
    refine ⟨k, hwaiting k hk ?_, hkv, hkf⟩
    intro hkj
    rw [hkj] at hkv
    exact hv hkv.symm
  · intro v F hF
    by_cases hv : v = j.job.vmid
    · subst hv
      rw [hlast] at hF
      refine ⟨j, q, (Option.some.inj hF).symm, hc.mem_of_body (vm_mem_bodyOf hfence), rfl,
        h.waits j hj, ?_⟩
      intro f hf
      cases hwill.updates f ((ha.record _).updates.symm.trans hf) with
      | inl hown => exact hupdate f hown
      | inr hring => exact hc.settled ho hmem hring
    · obtain ⟨L, q', hL⟩ := h.lastFlush v F ((hw.others v hv).symm.trans hF)
      exact ⟨L, q', hL.advance ha⟩
  · intro k hk hkf
    rcases hc.mem_log hk with hold | ⟨-, hbody | hend⟩
    · obtain ⟨hk, hs⟩ := h.own k hold hkf
      exact ⟨ha.mem_log hk, fun f hf => ha.settled k f (hs f hf)⟩
    · cases mem_bodyOf_ib hbody
      exact ⟨hc.mem_of_body hmem, hupdate⟩
    · cases hend
  · intro k hk hkf
    obtain ⟨L, hL⟩ := h.served k (ha.known k hk) hkf
    exact ⟨L, hL.advance ha⟩
  · intro g hg
    rw [hc.executed ho] at hg
    obtain ⟨f, hf⟩ := h.register g hg
    exact ⟨f, hf.congr (hc.executed ho) hc.pdReg hc.tlb⟩

/-- A job that relies on another flush is scheduled. -/
theorem Inv.schedule_shared (h : Inv ringOf E s)
    (hc : Commits ringOf s s' j.fence (bodyOf j packets)) (ha : Advances s s')
    (hw : Writes s j packets s'.mgr)
    (hwaiting : ∀ k ∈ s.waiting, k ≠ j → k ∈ s'.waiting) (hflush : j.job.vmNeedsFlush = false) :
    Inv ringOf E s' := by
  have ho := h.toOrderly
  have hne : ∀ k : User, k.job.vmNeedsFlush = true → k ≠ j := by
    intro k hk hkj
    rw [hkj, hflush] at hk
    cases hk
  apply h.advance (hc.orderly ho) ha
  · intro v
    by_cases hv : v = j.job.vmid
    · rw [hv]
      exact hw.kept hflush
    · exact hw.others v hv
  · exact fun k hk hkf => hwaiting k hk (hne k hkf)
  · intro k hk hkf
    rcases hc.mem_log hk with hold | ⟨-, hbody | hend⟩
    · exact hold
    · exact absurd (mem_bodyOf_ib hbody) (hne k hkf)
    · cases hend
  · intro g hg
    rw [hc.executed ho] at hg
    obtain ⟨f, hf⟩ := h.register g hg
    exact ⟨f, hf.congr (hc.executed ho) hc.pdReg hc.tlb⟩

theorem Inv.schedule (h : Inv ringOf E s) {env : Submit.Env} {before after : List User}
    (henv : env.flushFence = .done) (hready : s.Ready j)
    (hw : s.waiting = before ++ j :: after) : Inv ringOf E (s.schedule env j (before ++ after)) := by
  have hj : j ∈ s.waiting := by
    rw [hw]
    exact List.mem_append_right _ List.mem_cons_self
  obtain ⟨packets, m, hflush, hwrites⟩ := vmFlush_writes h.resets (h.valid j hj) henv
    (s.submit.needPipeSync env j.job)
  unfold Machine.schedule
  rw [hflush]
  dsimp only
  set s' : Machine := { s.push j.fence.ring (packets.map (.vm j) ++ [.ib j] ++ [.finish j.fence]) with
    mgr := m.mgr, syncSeq := m.syncSeq, waiting := before ++ after } with hs'
  have hc : Commits ringOf s s' j.fence (bodyOf j packets) :=
    { hwrites.body with
      log := rfl
      done := rfl
      pdReg := rfl
      tlb := rfl
      waiting := by
        rw [hw]
        exact (List.Sublist.refl _).append (List.sublist_cons_self _ _)
      others := h.apart_of_mem hw
      ring := (h.waiting j hj).1
      newest := (h.waiting j hj).2 }
  have ha : Advances s s' := by
    apply hc.advances h.toOrderly _ hwrites.record
    intro k hk
    rw [mem_bodyOf_ib hk]
    exact hj
  have hwaiting : ∀ k ∈ s.waiting, k ≠ j → k ∈ s'.waiting := fun k hk hne => mem_of_ne hw hk hne
  cases hneeds : j.job.vmNeedsFlush with
  | true => exact h.schedule_flush hc ha hwrites hj hready hwaiting hneeds
  | false => exact h.schedule_shared hc ha hwrites hwaiting hneeds

end Scheduled

end Gsgpu.Isolation
