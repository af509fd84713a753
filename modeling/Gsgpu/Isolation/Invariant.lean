import Gsgpu.Lib.Fifo
import Gsgpu.Isolation.Rings

/-! What holds in every run in which a VMID is only shared by jobs that its last flush serves, and why
a job is then isolated. -/
namespace Gsgpu.Isolation
open Fifo
open Ids (VmidMgr Vmid Vm Covers Unfinished Kept AllKept Missed Grants Source Assigned IdleOn
  UpTo lastFlushPending)
open Machine

/-- The job of a packet. -/
def Packet.job : Packet → Option User
  | .vm j _ => some j
  | .ib j => some j
  | .finish _ => none

/-- The packet with which a job flushes its VMID. -/
def flushOf (j : User) : Packet := .vm j (.vmFlush j.job.vmid j.job.vmPdAddr)

/-! ### What only grows -/

/-- The finished fences of a later state are those of the earlier one, or of later jobs. -/
structure Later (s s' : Machine) : Prop where
  log : ∀ r, ∃ more, s'.log r = s.log r ++ more
  done : ∀ r, s.done r ≤ s'.done r
  tlb : ∀ v d, s.tlb v = some d → ∃ d', s'.tlb v = some d' ∧ ∀ r, d r ≤ d' r
  newer : ∀ t, .finish t ∈ s'.log t.ring → .finish t ∈ s.log t.ring ∨
    ∀ u, .finish u ∈ s.log u.ring → u.entity = t.entity → u.seqno < t.seqno

namespace Later
variable {s s' : Machine}

theorem refl (s : Machine) : Later s s :=
  ⟨fun _ => ⟨[], (List.append_nil _).symm⟩, fun _ => le_rfl, fun _ d h => ⟨d, h, fun _ => le_rfl⟩,
    fun _ h => .inl h⟩

theorem mem_log (h : Later s s') {r : ℕ} {p : Packet} (hp : p ∈ s.log r) : p ∈ s'.log r := by
  obtain ⟨more, hmore⟩ := h.log r
  rw [hmore]
  exact List.mem_append_left _ hp

theorem mem_executed (h : Later s s') {r : ℕ} {p : Packet} (hp : p ∈ s.executed r) :
    p ∈ s'.executed r := by
  obtain ⟨more, hmore⟩ := h.log r
  unfold Machine.executed
  rw [hmore]
  exact mem_take_mono (h.done r) (mem_take_append hp more)

theorem finished (h : Later s s') {t : SchedFence} (ht : s.Finished t) : s'.Finished t :=
  h.mem_executed ht

theorem before (h : Later s s') {r : ℕ} {a b : Packet} (ha : a ∈ s.log r)
    (hb : Before (s.log r) a b) : Before (s'.log r) a b := by
  obtain ⟨more, hmore⟩ := h.log r
  rw [hmore]
  exact hb.append ha more

end Later

/-! ### Facts about jobs -/

/-- The job has ended before any packet of the other is executed. -/
def Ordered (s : Machine) (j k : User) : Prop :=
  s.Finished j.fence ∨ j.fence.ring = k.fence.ring ∧ .finish j.fence ∈ s.log j.fence.ring ∧
    ∀ p, p.job = some k → Before (s.log j.fence.ring) (.finish j.fence) p

/-- If the fence is the finished fence of a job, that job was scheduled, or a later one of its
entity. -/
def Pushed (s : Machine) (f : Fence) : Prop :=
  ∀ t, f = .finished t → ∃ u, u.entity = t.entity ∧ t.seqno ≤ u.seqno ∧ .finish u ∈ s.log u.ring

/-- Every job up to the fence has ended, or is on the ring. -/
def OnRing (s : Machine) (ring : ℕ) (f : Fence) : Prop :=
  Pushed s f ∧ ∀ t, Covered t f → .finish t ∈ s.log t.ring → s.Finished t ∨ t.ring = ring

/-- The TLB was flushed after every job up to the fence. -/
def Clean (s : Machine) (v : ℕ) (f : Fence) : Prop :=
  ∃ d, s.tlb v = some d ∧ ∀ t, Covered t f → .finish t ∈ s.log t.ring →
    .finish t ∈ (s.log t.ring).take (d t.ring)

/-- The job's flush comes after every job up to the fence. -/
def Awaited (s : Machine) (L : User) (f : Fence) : Prop :=
  ∀ t, Covered t f → .finish t ∈ s.log t.ring → s.Finished t ∨
    t.ring = L.fence.ring ∧ Before (s.log t.ring) (.finish t) (flushOf L)

/-- Once the job's flush is executed, the TLB is clean up to the fence. -/
def Settled (s : Machine) (L : User) (f : Fence) : Prop :=
  Pushed s f ∧ (Clean s L.job.vmid f ∨ flushOf L ∉ s.executed L.fence.ring ∧ Awaited s L f)

/-- The job is waiting, or was scheduled. -/
def Known (s : Machine) (j : User) : Prop := j ∈ s.waiting ∨ .ib j ∈ s.log j.fence.ring

section Growth
variable {s s' : Machine} {j k L : User} {f : Fence} {v : ℕ}

theorem Ordered.later (h : Ordered s j k) (hl : Later s s') : Ordered s' j k := by
  cases h with
  | inl hfin => exact .inl (hl.finished hfin)
  | inr hring =>
    obtain ⟨hsame, hmem, hbefore⟩ := hring
    exact .inr ⟨hsame, hl.mem_log hmem, fun p hp => hl.before hmem (hbefore p hp)⟩

theorem Pushed.later (h : Pushed s f) (hl : Later s s') : Pushed s' f := by
  intro t ht
  obtain ⟨u, hent, hseq, hu⟩ := h t ht
  exact ⟨u, hent, hseq, hl.mem_log hu⟩

/-- A job up to a fence that was pushed is not new. -/
theorem Pushed.old (h : Pushed s f) (hl : Later s s') {t : SchedFence} (ht : Covered t f)
    (hmem : .finish t ∈ s'.log t.ring) : .finish t ∈ s.log t.ring := by
  cases hl.newer t hmem with
  | inl hold => exact hold
  | inr hnew =>
    obtain ⟨v, rfl, hent⟩ := Ids.eq_finished_of_context ht.1.symm
    obtain ⟨u, hent', hseq, hu⟩ := h v rfl
    have hlt := hnew u hu (hent'.trans hent)
    have hle : t.seqno ≤ v.seqno := ht.2
    omega

theorem OnRing.later {ring : ℕ} (h : OnRing s ring f) (hl : Later s s') : OnRing s' ring f := by
  refine ⟨h.1.later hl, ?_⟩
  intro t ht hmem
  cases h.2 t ht (h.1.old hl ht hmem) with
  | inl hfin => exact .inl (hl.finished hfin)
  | inr hring => exact .inr hring

theorem Clean.later (h : Clean s v f) (hp : Pushed s f) (hl : Later s s') : Clean s' v f := by
  obtain ⟨d, hd, hclean⟩ := h
  obtain ⟨d', hd', hle⟩ := hl.tlb v d hd
  refine ⟨d', hd', ?_⟩
  intro t ht hmem
  have hold := hclean t ht (hp.old hl ht hmem)
  obtain ⟨more, hmore⟩ := hl.log t.ring
  rw [hmore]
  exact mem_take_mono (hle _) (mem_take_append hold more)

theorem Awaited.later (h : Awaited s L f) (hp : Pushed s f) (hl : Later s s') :
    Awaited s' L f := by
  intro t ht hmem
  have hold := hp.old hl ht hmem
  cases h t ht hold with
  | inl hfin => exact .inl (hl.finished hfin)
  | inr hring => exact .inr ⟨hring.1, hl.before hold hring.2⟩

theorem Settled.later (h : Settled s L f) (hl : Later s s')
    (hflush : flushOf L ∈ s'.executed L.fence.ring → flushOf L ∈ s.executed L.fence.ring) :
    Settled s' L f := by
  refine ⟨h.1.later hl, ?_⟩
  cases h.2 with
  | inl hclean => exact .inl (hclean.later h.1 hl)
  | inr hawaited => exact .inr ⟨fun hc => hawaited.1 (hflush hc), hawaited.2.later h.1 hl⟩

end Growth

/-! ### The invariant -/

/-- The order in which the rings execute what they are given. -/
structure Orderly (ringOf : ℕ → ℕ) (s : Machine) : Prop where
  nodup : ∀ r, (s.log r).Nodup
  done_le : ∀ r, s.done r ≤ (s.log r).length
  ends : ∀ r t, .finish t ∈ s.log r → t.ring = r ∧ r = ringOf t.entity
  inOrder : ∀ t u, .finish t ∈ s.log t.ring → .finish u ∈ s.log u.ring → t.entity = u.entity →
    t.seqno ≤ u.seqno → Before (s.log u.ring) (.finish t) (.finish u)
  ib : ∀ r j, .ib j ∈ s.log r → j.fence.ring = r ∧ .finish j.fence ∈ s.log r ∧
    Before (s.log r) (.ib j) (.finish j.fence)
  vm : ∀ r j p, .vm j p ∈ s.log r → .ib j ∈ s.log r ∧ Before (s.log r) (.vm j p) (.ib j)
  flush : ∀ r j v pd, .vm j (.vmFlush v pd) ∈ s.log r →
    Packet.vm j (.vmFlush v pd) = flushOf j
  fence : ∀ r j r' q, .vm j (.fence r' q) ∈ s.log r → flushOf j ∈ s.log r ∧
    Before (s.log r) (flushOf j) (.vm j (.fence r' q))
  waiting : ∀ j ∈ s.waiting, j.fence.ring = ringOf j.fence.entity ∧
    ∀ u, .finish u ∈ s.log u.ring → u.entity = j.fence.entity → u.seqno < j.fence.seqno
  apart : s.waiting.Pairwise fun j k => j.fence.entity ≠ k.fence.entity
  snapshot : ∀ v d, s.tlb v = some d → ∀ r, d r ≤ s.done r

/-- The grants of a VMID are counted in epochs: one starts with each grant of the VMID as idle. -/
structure Epochs where
  epoch : SchedFence → ℕ
  current : ℕ → ℕ

/-- The jobs of a VMID: those of one epoch are of one VM under one page directory, and those of an
earlier epoch have ended before. -/
structure Grouped (E : Epochs) (s : Machine) : Prop where
  covers : ∀ j, Known s j → s.Finished j.fence ∨ Covers (s.mgr.ids j.job.vmid).active j.fence
  epoch_le : ∀ j, Known s j → E.epoch j.fence ≤ E.current j.job.vmid
  same : ∀ j k, Known s j → Known s k → j.job.vmid = k.job.vmid →
    E.epoch j.fence = E.epoch k.fence → j.vm = k.vm ∧ j.job.vmPdAddr = k.job.vmPdAddr
  ordered : ∀ j k, Known s j → Known s k → j.job.vmid = k.job.vmid →
    E.epoch j.fence < E.epoch k.fence → Ordered s j k
  waits : ∀ j ∈ s.waiting, E.epoch j.fence = E.current j.job.vmid
  owned : ∀ j, Known s j → E.epoch j.fence = E.current j.job.vmid →
    (∀ vm, (s.mgr.ids j.job.vmid).owner = some vm → vm = j.vm) ∧
      ((s.mgr.ids j.job.vmid).pdGpuAddr = j.job.vmPdAddr ∨
        (s.mgr.ids j.job.vmid).pdGpuAddr = 0)

/-- The flush of another job that serves a job: it comes first, and after the job's updates. -/
structure Serves (E : Epochs) (s : Machine) (L j : User) : Prop where
  mem : flushOf L ∈ s.log L.fence.ring
  vmid : L.job.vmid = j.job.vmid
  epoch : E.epoch L.fence = E.epoch j.fence
  before : flushOf L ∈ s.executed L.fence.ring ∨ L.fence.ring = j.fence.ring ∧
    ∀ p, p.job = some j → Before (s.log j.fence.ring) (flushOf L) p
  settled : ∀ f, j.update = some f → Settled s L f

/-- The flush that the record of a VMID remembers. -/
structure Leads (E : Epochs) (s : Machine) (v : ℕ) (F : Fence) (L : User) (q : ℕ) : Prop where
  eq : F = .hw L.fence.ring q
  mem : .vm L (.fence L.fence.ring q) ∈ s.log L.fence.ring
  vmid : L.job.vmid = v
  epoch : E.epoch L.fence = E.current v
  settled : ∀ f, (s.mgr.ids v).flushedUpdates = some f → Settled s L f

/-- A job that flushes its VMID is the only one to wait for that, and will flush after the updates
that the record says are flushed. -/
structure WillFlush (s : Machine) (j : User) : Prop where
  lastFlush : (s.mgr.ids j.job.vmid).lastFlush = none
  updates : ∀ f, (s.mgr.ids j.job.vmid).flushedUpdates = some f →
    j.update = some f ∨ OnRing s j.fence.ring f
  alone : ∀ k ∈ s.waiting, k.job.vmNeedsFlush = true → k.job.vmid = j.job.vmid → k = j

/-- The register and the TLB of a VMID are those of a flush of the last epoch that has flushed. -/
structure Shown (E : Epochs) (s : Machine) (v : ℕ) (f : User) : Prop where
  mem : flushOf f ∈ s.executed f.fence.ring
  vmid : f.job.vmid = v
  pdReg : s.pdReg v = f.job.vmPdAddr
  tlb : ∃ d, s.tlb v = some d
  last : ∀ g, flushOf g ∈ s.executed g.fence.ring → g.job.vmid = v →
    E.epoch g.fence ≤ E.epoch f.fence

/-- What the record of a VMID and its jobs promise each other. -/
structure Inv (ringOf : ℕ → ℕ) (E : Epochs) (s : Machine) : Prop
    extends Orderly ringOf s, Grouped E s where
  resets : ∀ v, (s.mgr.ids v).currentGpuResetCount = 0
  valid : ∀ j ∈ s.waiting, j.job.vmPdAddr ≠ CommandRing.boInvalidOffset
  flusher : ∀ j ∈ s.waiting, j.job.vmNeedsFlush = true → WillFlush s j
  unflushed : ∀ v, (s.mgr.ids v).lastFlush = none → (s.mgr.ids v).flushedUpdates = none ∨
    ∃ j ∈ s.waiting, j.job.vmid = v ∧ j.job.vmNeedsFlush = true
  lastFlush : ∀ v F, (s.mgr.ids v).lastFlush = some F → ∃ L q, Leads E s v F L q
  own : ∀ j, .ib j ∈ s.log j.fence.ring → j.job.vmNeedsFlush = true →
    flushOf j ∈ s.log j.fence.ring ∧ ∀ f, j.update = some f → Settled s j f
  served : ∀ j, Known s j → j.job.vmNeedsFlush = false → ∃ L, Serves E s L j
  register : ∀ g, flushOf g ∈ s.executed g.fence.ring → ∃ f, Shown E s g.job.vmid f

section Safety
variable {ringOf : ℕ → ℕ} {E : Epochs} {s : Machine}

theorem mem_log_of_executed {r : ℕ} {p : Packet} (h : p ∈ s.executed r) : p ∈ s.log r :=
  List.mem_of_mem_take h

/-- A packet of a job that was executed is one of a scheduled job. -/
theorem Orderly.known_of_vm (h : Orderly ringOf s) {r : ℕ} {j : User} {p : Submit.Packet}
    (hp : .vm j p ∈ s.log r) : j.fence.ring = r ∧ Known s j := by
  have hib := (h.vm r j p hp).1
  have hr := (h.ib r j hib).1
  refine ⟨hr, .inr ?_⟩
  rw [hr]
  exact hib

/-- A job that has ended was executed. -/
theorem Orderly.executed_of_finished (h : Orderly ringOf s) {j : User}
    (hib : .ib j ∈ s.log j.fence.ring) (hfin : s.Finished j.fence) :
    .ib j ∈ s.executed j.fence.ring :=
  (h.ib _ j hib).2.2 _ hfin

/-- A job that has not ended is not followed by a later epoch. -/
theorem Inv.epoch_eq (h : Inv ringOf E s) {j f : User} (hj : Known s j) (hfin : ¬ s.Finished j.fence)
    (hf : flushOf f ∈ s.executed f.fence.ring) (hv : f.job.vmid = j.job.vmid)
    (hle : E.epoch j.fence ≤ E.epoch f.fence) : E.epoch j.fence = E.epoch f.fence := by
  have hknown : Known s f := (h.known_of_vm (mem_log_of_executed hf)).2
  apply Nat.le_antisymm hle
  by_contra hlt
  cases h.ordered j f hj hknown hv.symm (Nat.lt_of_not_le hlt) with
  | inl hend => exact hfin hend
  | inr hring =>
    obtain ⟨hsame, -, hbefore⟩ := hring
    apply hfin
    apply hbefore (flushOf f) rfl
    rw [hsame]
    exact hf

/-- Jobs of other VMs that execute with the VMID are on the ring of a job that has not ended. -/
theorem Inv.alone (h : Inv ringOf E s) {j k : User} (hj : Known s j) (hfin : ¬ s.Finished j.fence)
    (hk : Known s k) (hv : k.job.vmid = j.job.vmid) (hne : k.fence.ring ≠ j.fence.ring)
    (hvm : k.vm ≠ j.vm) : s.Finished k.fence := by
  rcases Nat.lt_trichotomy (E.epoch k.fence) (E.epoch j.fence) with hlt | heq | hgt
  · cases h.ordered k j hk hj hv hlt with
    | inl hend => exact hend
    | inr hring => exact absurd hring.1 hne
  · exact absurd (h.same k j hk hj hv heq).1 hvm
  · cases h.ordered j k hj hk hv.symm hgt with
    | inl hend => exact absurd hend hfin
    | inr hring => exact absurd hring.1.symm hne

/-- What comes before the IBs of a job was executed when the job executes. -/
theorem executed_of_executes {j : User} (h : Executes s j) {p : Packet}
    (hp : Before (s.log j.fence.ring) p (.ib j)) (hne : p ≠ .ib j) :
    p ∈ s.executed j.fence.ring := by
  cases h with
  | inl hnext => exact hp.next hnext hne
  | inr hib => exact hp _ hib.1

/-- A job that executes was scheduled, and has not ended. -/
theorem Orderly.executing (h : Orderly ringOf s) {j : User} (hj : Executes s j) :
    .ib j ∈ s.log j.fence.ring ∧ ¬ s.Finished j.fence := by
  cases hj with
  | inl hnext =>
    have hlog : .ib j ∈ s.log j.fence.ring := List.mem_of_getElem? hnext
    exact ⟨hlog, fun hfin => not_mem_take (h.nodup _) hnext (h.executed_of_finished hlog hfin)⟩
  | inr hib => exact ⟨mem_log_of_executed hib.1, hib.2⟩

/-- The flush that serves a job that executes was executed. -/
theorem Inv.cleaned (h : Inv ringOf E s) {j : User} (hj : Executes s j) :
    ∃ L, flushOf L ∈ s.executed L.fence.ring ∧ L.job.vmid = j.job.vmid ∧
      E.epoch L.fence = E.epoch j.fence ∧ ∀ f, j.update = some f → Clean s j.job.vmid f := by
  have hlog := (h.executing hj).1
  have hclean : ∀ L : User, flushOf L ∈ s.executed L.fence.ring → L.job.vmid = j.job.vmid →
      (∀ f, j.update = some f → Settled s L f) →
      ∀ f, j.update = some f → Clean s j.job.vmid f := by
    intro L hexec hv hs f hf
    have hclean := (hs f hf).2.resolve_right fun hc => hc.1 hexec
    rw [hv] at hclean
    exact hclean
  cases hflush : j.job.vmNeedsFlush with
  | true =>
    obtain ⟨hmem, hs⟩ := h.own j hlog hflush
    have hexec := executed_of_executes hj (h.vm _ j _ hmem).2 (fun hc => by cases hc)
    exact ⟨j, hexec, rfl, rfl, hclean j hexec rfl hs⟩
  | false =>
    obtain ⟨L, hL⟩ := h.served j (.inr hlog) hflush
    have hexec : flushOf L ∈ s.executed L.fence.ring := by
      cases hL.before with
      | inl hexec => exact hexec
      | inr hring =>
        rw [hring.1]
        exact executed_of_executes hj (hring.2 (.ib j) rfl) fun hc => by cases hc
    exact ⟨L, hexec, hL.vmid, hL.epoch, hclean L hexec hL.vmid hL.settled⟩

theorem Inv.isolated (h : Inv ringOf E s) {j : User} (hj : Executes s j) : Isolated s j := by
  obtain ⟨hlog, hfin⟩ := h.executing hj
  have hknown : Known s j := .inr hlog
  obtain ⟨L, hexec, hv, he, hclean⟩ := h.cleaned hj
  obtain ⟨f, hf⟩ := h.register L hexec
  rw [hv] at hf
  have hfknown : Known s f := (h.known_of_vm (mem_log_of_executed hf.mem)).2
  have hle : E.epoch j.fence ≤ E.epoch f.fence := by
    rw [← he]
    exact hf.last L hexec hv
  have hepoch := h.epoch_eq hknown hfin hf.mem hf.vmid hle
  constructor
  · rw [hf.pdReg, (h.same j f hknown hfknown hf.vmid.symm hepoch).2]
  · obtain ⟨d, hd⟩ := hf.tlb
    refine ⟨d, hd, ?_⟩
    intro u hu t ht hmem
    obtain ⟨d', hd', hclean⟩ := hclean u hu
    obtain rfl : d = d' := Option.some.inj (hd.symm.trans hd')
    exact hclean t ht hmem
  · intro r k hne hk hkv hvm
    have hkr := (h.ib r k (mem_log_of_executed hk)).1
    subst hkr
    exact h.alone hknown hfin (.inr (mem_log_of_executed hk)) hkv hne hvm

end Safety

/-! ### The records change -/

/-- A record that promises no more: its owner may be forgotten, and its page directory. -/
structure Weaker (id id' : Vmid) : Prop where
  lastFlush : id'.lastFlush = id.lastFlush
  updates : id'.flushedUpdates = id.flushedUpdates
  resets : id'.currentGpuResetCount = id.currentGpuResetCount
  owner : id'.owner = id.owner ∨ id'.owner = none
  directory : id'.pdGpuAddr = id.pdGpuAddr ∨ id'.pdGpuAddr = 0

theorem Weaker.refl (id : Vmid) : Weaker id id := ⟨rfl, rfl, rfl, .inl rfl, .inl rfl⟩

theorem Weaker.owned {id id' : Vmid} (h : Weaker id id') {j : User}
    (ho : (∀ vm, id.owner = some vm → vm = j.vm) ∧
      (id.pdGpuAddr = j.job.vmPdAddr ∨ id.pdGpuAddr = 0)) :
    (∀ vm, id'.owner = some vm → vm = j.vm) ∧
      (id'.pdGpuAddr = j.job.vmPdAddr ∨ id'.pdGpuAddr = 0) := by
  constructor
  · intro vm hvm
    cases h.owner with
    | inl hsame => exact ho.1 vm (hsame ▸ hvm)
    | inr hnone =>
      rw [hnone] at hvm
      cases hvm
  · cases h.directory with
    | inl hsame =>
      rw [hsame]
      exact ho.2
    | inr hzero => exact .inr hzero

section Records
variable {ringOf : ℕ → ℕ} {E : Epochs} {s : Machine}

theorem Orderly.congr {s' : Machine} (h : Orderly ringOf s) (hlog : s'.log = s.log)
    (hdone : s'.done = s.done) (hw : s'.waiting = s.waiting) (htlb : s'.tlb = s.tlb) :
    Orderly ringOf s' := by
  constructor
  · rw [hlog]; exact h.nodup
  · rw [hlog, hdone]; exact h.done_le
  · rw [hlog]; exact h.ends
  · rw [hlog]; exact h.inOrder
  · rw [hlog]; exact h.ib
  · rw [hlog]; exact h.vm
  · rw [hlog]; exact h.flush
  · rw [hlog]; exact h.fence
  · rw [hlog, hw]; exact h.waiting
  · rw [hw]; exact h.apart
  · rw [htlb, hdone]; exact h.snapshot

theorem WillFlush.weaken {m : VmidMgr} {j : User} (h : WillFlush s j)
    (hid : Weaker (s.mgr.ids j.job.vmid) (m.ids j.job.vmid)) :
    WillFlush { s with mgr := m } j where
  lastFlush := hid.lastFlush.trans h.lastFlush
  updates f hf := h.updates f (hid.updates.symm.trans hf)
  alone := h.alone

theorem Leads.weaken {m : VmidMgr} {v q : ℕ} {F : Fence} {L : User} (h : Leads E s v F L q)
    (hid : Weaker (s.mgr.ids v) (m.ids v)) : Leads E { s with mgr := m } v F L q where
  eq := h.eq
  mem := h.mem
  vmid := h.vmid
  epoch := h.epoch
  settled f hf := h.settled f (hid.updates.symm.trans hf)

theorem Inv.weaken (h : Inv ringOf E s) {m : VmidMgr}
    (hids : ∀ v, Weaker (s.mgr.ids v) (m.ids v))
    (hcovers : ∀ j, Known s j → ¬ s.Finished j.fence →
      Covers (s.mgr.ids j.job.vmid).active j.fence → Covers (m.ids j.job.vmid).active j.fence) :
    Inv ringOf E { s with mgr := m } where
  toOrderly := h.toOrderly.congr rfl rfl rfl rfl
  resets v := (hids v).resets.trans (h.resets v)
  valid := h.valid
  covers j hj := by
    by_cases hfin : s.Finished j.fence
    · exact .inl hfin
    · exact .inr (hcovers j hj hfin ((h.covers j hj).resolve_left hfin))
  epoch_le := h.epoch_le
  same := h.same
  ordered := h.ordered
  waits := h.waits
  owned j hj he := (hids j.job.vmid).owned (h.owned j hj he)
  flusher j hj hflush := (h.flusher j hj hflush).weaken (hids _)
  unflushed v := by
    dsimp only
    rw [(hids v).lastFlush, (hids v).updates]
    exact h.unflushed v
  lastFlush v F hF := by
    obtain ⟨L, q, hL⟩ := h.lastFlush v F ((hids v).lastFlush.symm.trans hF)
    exact ⟨L, q, hL.weaken (hids v)⟩
  own := h.own
  served j hj hflush := by
    obtain ⟨L, hL⟩ := h.served j hj hflush
    exact ⟨L, hL.mem, hL.vmid, hL.epoch, hL.before, hL.settled⟩
  register g hg := by
    obtain ⟨f, hf⟩ := h.register g hg
    exact ⟨f, hf.mem, hf.vmid, hf.pdReg, hf.tlb, hf.last⟩

theorem Inv.reset (h : Inv ringOf E s) (v : ℕ) :
    Inv ringOf E { s with mgr := Ids.vmidReset s.mgr v } := by
  have hids : ∀ v', Weaker (s.mgr.ids v') ((Ids.vmidReset s.mgr v).ids v') ∧
      ((Ids.vmidReset s.mgr v).ids v').active = (s.mgr.ids v').active := by
    intro v'
    unfold Ids.vmidReset
    by_cases hv : v' = v
    · rw [hv, Ids.setId_ids]
      exact ⟨⟨rfl, rfl, rfl, .inr rfl, .inl rfl⟩, rfl⟩
    · rw [Ids.setId_ids_of_ne _ _ hv]
      exact ⟨.refl _, rfl⟩
  apply h.weaken fun v' => (hids v').1
  intro j _ _ hc
  rw [(hids _).2]
  exact hc

theorem Inv.sameIds (h : Inv ringOf E s) {m : VmidMgr} (hm : m.ids = s.mgr.ids) :
    Inv ringOf E { s with mgr := m } := by
  apply h.weaken
  · intro v
    rw [hm]
    exact .refl _
  · intro j _ _ hc
    rw [hm]
    exact hc

/-- The fences of jobs that have not ended are not found signaled. -/
theorem Orderly.unfinished (h : Orderly ringOf s) {signaled : Fence → Bool} (hs : s.Sound signaled)
    {j : User} (hj : Known s j) (hfin : ¬ s.Finished j.fence) : Unfinished signaled j.fence := by
  intro u hent hseq
  by_contra hsig
  have hu : s.Finished u := hs (.finished u) (by simpa using hsig)
  have hulog : .finish u ∈ s.log u.ring := mem_log_of_executed hu
  cases hj with
  | inl hw =>
    have hlt := (h.waiting j hw).2 u hulog hent
    omega
  | inr hib =>
    have hend := (h.ib _ j hib).2.1
    have hring : u.ring = j.fence.ring := by
      rw [(h.ends _ _ hulog).2, (h.ends _ _ hend).2, hent]
    apply hfin
    have hmem := h.inOrder j.fence u hend hulog hent.symm hseq _ hu
    unfold Machine.Finished
    rw [← hring]
    exact hmem

theorem Inv.missed (h : Inv ringOf E s) {signaled : Fence → Bool} (hs : s.Sound signaled)
    {m : VmidMgr} (hm : Missed signaled s.mgr m) : Inv ringOf E { s with mgr := m } := by
  apply h.weaken
  · intro v
    have hk := hm.kept v
    exact ⟨hk.lastFlush, hm.updates v, hk.resetCount, .inl hk.owner, hk.pdGpuAddr⟩
  · intro j hj hfin hc
    exact (hm.kept _).covers _ (h.unfinished hs hj hfin) hc

end Records

end Gsgpu.Isolation
