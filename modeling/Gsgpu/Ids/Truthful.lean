import Gsgpu.Ids.Bookkeeping
import Gsgpu.Lib.Run

/-! What the VMID records say was committed, in every run in which no call of `gsgpu_ib_schedule`
fails after its `gsgpu_vm_flush` has recorded something. -/
namespace Gsgpu.Submit
open CommandRing (FenceOutcome)
open CommandRing.Engine (vmNeedPipelineSync)
open Cs (Ib)
open Ids (VmidMgr Vmid Vm Covers Kept AllKept Grants Assigned PoolInv)
open Machine (bodyPackets)

/-- The record of a VMID claims nothing that was not committed. -/
structure Entry (pasidOf : ℕ → ℕ) (log : List Packet) (v : ℕ) (id : Vmid) : Prop where
  bound : ∀ vm, id.owner = some vm → id.lastFlush ≠ none → lastBind log v = some (pasidOf vm)
  mapped : id.pasidMapping ≠ none → lastBind log v = some id.pasid
  flushed : ∀ f, id.lastFlush = some f → FlushCommitted log v f

/-- A job that waits to be scheduled has its VMID to its VM, and needs no flush only where its
pasid is bound. -/
structure Placed (pasidOf : ℕ → ℕ) (log : List Packet) (id : Vmid) (j : Granted) : Prop where
  vmid : j.job.vmid ≠ 0
  pasid : j.job.pasid = pasidOf j.vm
  covers : Covers id.active j.fence
  owned : ∀ vm, id.owner = some vm → vm = j.vm
  noFlush : j.job.vmNeedsFlush = false → lastBind log j.job.vmid = some j.job.pasid

/-- The invariant of the runs. -/
structure Inv (pasidOf : ℕ → ℕ) (s : Machine) : Prop where
  pool : PoolInv s.mgr
  entries : ∀ v, v ≠ 0 → Entry pasidOf s.log v (s.mgr.ids v)
  placed : ∀ j ∈ s.pending, Placed pasidOf s.log (s.mgr.ids j.job.vmid) j
  oneVm : ∀ j ∈ s.pending, ∀ j' ∈ s.pending, j.job.vmid = j'.job.vmid → j.vm = j'.vm

section Invariant
variable {pasidOf : ℕ → ℕ} {s s' : Machine}

theorem Entry.kept {log : List Packet} {v : ℕ} {signaled : Fence → Bool} {id id' : Vmid}
    (h : Entry pasidOf log v id) (hk : Kept signaled id id') : Entry pasidOf log v id' where
  bound := by
    rw [hk.owner, hk.lastFlush]
    exact h.bound
  mapped := by
    rw [hk.pasidMapping, hk.pasid]
    exact h.mapped
  flushed := by
    rw [hk.lastFlush]
    exact h.flushed

/-- More was committed, and nothing of it binds the VMID. -/
theorem Entry.more {log more : List Packet} {v : ℕ} {id : Vmid} (h : Entry pasidOf log v id)
    (hmore : lastBind more v = none) : Entry pasidOf (log ++ more) v id := by
  have hlast : lastBind (log ++ more) v = lastBind log v := by
    rw [lastBind_append, hmore, Option.none_or]
  constructor
  · rw [hlast]
    exact h.bound
  · rw [hlast]
    exact h.mapped
  · exact fun f hf => (h.flushed f hf).mono (List.prefix_append log more).isInfix

theorem Entry.noOwner {log : List Packet} {v : ℕ} {id : Vmid} (h : Entry pasidOf log v id) :
    Entry pasidOf log v { id with owner := none } :=
  ⟨fun _ hc => (by cases hc), h.mapped, h.flushed⟩

theorem Inv.congr (h : Inv pasidOf s) (hmgr : s'.mgr = s.mgr) (hpending : s'.pending = s.pending)
    (hlog : s'.log = s.log) : Inv pasidOf s' := by
  constructor
  · rw [hmgr]
    exact h.pool
  · rw [hmgr, hlog]
    exact h.entries
  · rw [hmgr, hlog, hpending]
    exact h.placed
  · rw [hpending]
    exact h.oneVm

theorem Inv.sameBut (h : Inv pasidOf s) (hs : SameBut s s') : Inv pasidOf s' := by
  apply h.congr
  · rw [hs]
  · rw [hs]
  · rw [hs]

theorem Inv.subset (h : Inv pasidOf s) {rest : List Granted} (hrest : ∀ j ∈ rest, j ∈ s.pending) :
    Inv pasidOf { s with pending := rest } where
  pool := h.pool
  entries := h.entries
  placed j hj := h.placed j (hrest j hj)
  oneVm j hj j' hj' := h.oneVm j (hrest j hj) j' (hrest j' hj')

theorem Takes.mem {j : Granted} {rest : List Granted} (h : s.Takes j rest) :
    j ∈ s.pending ∧ ∀ j' ∈ rest, j' ∈ s.pending := by
  obtain ⟨before, after, hs, rfl⟩ := h
  rw [hs]
  constructor
  · simp
  · intro j' hj'
    cases List.mem_append.mp hj' with
    | inl hb => exact List.mem_append_left _ hb
    | inr ha => exact List.mem_append_right _ (List.mem_cons_of_mem _ ha)

/-! ### The other events -/

/-- Only the record of VMID 0 changes, and only VMID 0 is bound. -/
theorem Inv.zero (h : Inv pasidOf s) (id : Vmid) {more : List Packet}
    (hmore : ∀ v, v ≠ 0 → lastBind more v = none) :
    Inv pasidOf { s with mgr := s.mgr.setId 0 id, log := s.log ++ more } := by
  have hids : ∀ v, v ≠ 0 → (s.mgr.setId 0 id).ids v = s.mgr.ids v := fun v hv =>
    Function.update_of_ne hv _ _
  constructor
  · exact h.pool.samePool (.setId _ _ _)
  · intro v hv
    dsimp only
    rw [hids v hv]
    exact (h.entries v hv).more (hmore v hv)
  · intro j hj
    obtain ⟨hvmid, hpasid, hcovers, howned, hno⟩ := h.placed j hj
    dsimp only
    rw [hids _ hvmid]
    refine ⟨hvmid, hpasid, hcovers, howned, ?_⟩
    rw [lastBind_append, hmore _ hvmid, Option.none_or]
    exact hno
  · exact h.oneVm

theorem Inv.reset (h : Inv pasidOf s) (v : ℕ) :
    Inv pasidOf { s with mgr := Ids.vmidReset s.mgr v } := by
  have hids : ∀ v', (Ids.vmidReset s.mgr v).ids v' = s.mgr.ids v' ∨
      (Ids.vmidReset s.mgr v).ids v' = { s.mgr.ids v' with owner := none } := by
    intro v'
    by_cases hv : v' = v
    · subst hv
      exact .inr (Ids.setId_ids _ _ _)
    · exact .inl (Function.update_of_ne hv _ _)
  constructor
  · exact h.pool.samePool (.setId _ _ _)
  · intro v' hv'
    dsimp only
    cases hids v' with
    | inl hsame =>
      rw [hsame]
      exact h.entries v' hv'
    | inr hnone =>
      rw [hnone]
      exact (h.entries v' hv').noOwner
  · intro j hj
    dsimp only
    cases hids j.job.vmid with
    | inl hsame =>
      rw [hsame]
      exact h.placed j hj
    | inr hnone =>
      rw [hnone]
      obtain ⟨hvmid, hpasid, hcovers, -, hno⟩ := h.placed j hj
      exact ⟨hvmid, hpasid, hcovers, fun _ hc => (by cases hc), hno⟩
  · exact h.oneVm

theorem Inv.resetJob (h : Inv pasidOf s) (job : Option CommandRing.Job) :
    Inv pasidOf (s.resetJob job) := by
  cases job with
  | none => exact h
  | some job =>
    unfold Machine.resetJob
    dsimp only
    split
    · exact h
    · exact h.reset job.vmid

/-- The records stay as they are. -/
theorem Inv.pool_congr (h : Inv pasidOf s) {m : VmidMgr} (hm : PoolInv m)
    (hids : m.ids = s.mgr.ids) : Inv pasidOf { s with mgr := m } where
  pool := hm
  entries := by
    dsimp only
    rw [hids]
    exact h.entries
  placed := by
    dsimp only
    rw [hids]
    exact h.placed
  oneVm := h.oneVm

/-! ### A grab -/

theorem Inv.allKept (h : Inv pasidOf s) {signaled : Fence → Bool} (hq : s.Quiet signaled)
    {m : VmidMgr} (hm : PoolInv m) (hk : AllKept signaled s.mgr m) :
    Inv pasidOf { s with mgr := m } where
  pool := hm
  entries v hv := (h.entries v hv).kept (hk v)
  placed j hj := by
    obtain ⟨hvmid, hpasid, hcovers, howned, hno⟩ := h.placed j hj
    refine ⟨hvmid, hpasid, (hk _).covers _ (hq j hj).unfinished hcovers, ?_, hno⟩
    rw [(hk _).owner]
    exact howned
  oneVm := h.oneVm

/-- The waiting jobs of a VMID that is granted are of the VM it is granted to. -/
theorem Inv.granted_vm (h : Inv pasidOf s) {signaled : Fence → Bool} (hq : s.Quiet signaled)
    {vm : Vm} {ring pd : ℕ} {updates : Option Fence} {t : SchedFence} {m : VmidMgr} {flush : Bool}
    {i : ℕ} (hg : Grants signaled vm ring pd updates t s.mgr m flush i) {j : Granted} (hj : j ∈ s.pending)
    (hi : j.job.vmid = i) : j.vm = vm.entity := by
  have hplaced := h.placed j hj
  rw [hi] at hplaced
  cases hg.free with
  | inl howner => exact (hplaced.owned _ howner).symm
  | inr hidle => exact absurd hplaced.covers (hidle.not_covers (hq j hj))

theorem Entry.assign {log : List Packet} {i : ℕ} {id id' : Vmid} {vm : Vm} {pd : ℕ} {flush : Bool}
    (h : Entry pasidOf log i id) (ha : Assigned vm pd flush id id')
    (hflush : flush = false → id.owner = some vm.entity ∧ id.lastFlush ≠ none) :
    Entry pasidOf log i id' := by
  constructor
  · intro vm' howner hlast
    obtain rfl : vm.entity = vm' := Option.some.inj (ha.owner.symm.trans howner)
    cases flush with
    | true => exact absurd ha.lastFlush hlast
    | false => exact h.bound vm.entity (hflush rfl).1 (hflush rfl).2
  · rw [ha.pasidMapping, ha.pasid]
    exact h.mapped
  · intro f hf
    cases flush with
    | true =>
      rw [ha.lastFlush] at hf
      cases hf
    | false => exact h.flushed f (ha.lastFlush.symm.trans hf)

theorem Inv.assign (h : Inv pasidOf s) {signaled : Fence → Bool} (hq : s.Quiet signaled)
    {vm : Vm} {ring pd pd' : ℕ} {updates : Option Fence} {t : SchedFence} {m : VmidMgr} {i : ℕ}
    {id : Vmid} {flush : Bool} {job : CommandRing.Job} (hi : i ≠ 0) (hm : PoolInv (m.setId i id))
    (hg : Grants signaled vm ring pd updates t s.mgr m flush i) (ha : Assigned vm pd' flush (m.ids i) id)
    (hvmid : job.vmid = i) (hpasid : job.pasid = pasidOf vm.entity)
    (hflush : job.vmNeedsFlush = flush) :
    Inv pasidOf { s with mgr := m.setId i id, pending := ⟨job, vm.entity, t⟩ :: s.pending } := by
  have hvm : ∀ j ∈ s.pending, j.job.vmid = i → j.vm = vm.entity := fun j hj hji =>
    h.granted_vm hq hg hj hji
  have hself : (m.setId i id).ids i = id := Ids.setId_ids m i id
  have hothers : ∀ v, v ≠ i → (m.setId i id).ids v = m.ids v := fun v hv =>
    Function.update_of_ne hv _ _
  have hkept := hg.kept i
  constructor
  · exact hm
  · intro v hv
    dsimp only
    by_cases hvi : v = i
    · subst hvi
      rw [hself]
      apply ((h.entries v hv).kept hkept).assign ha
      rw [hkept.owner, hkept.lastFlush]
      exact hg.flushed
    · rw [hothers v hvi]
      exact (h.entries v hv).kept (hg.kept v)
  · intro j hj
    dsimp only
    cases List.mem_cons.mp hj with
    | inl hnew =>
      subst hnew
      dsimp only
      rw [hvmid, hself]
      refine ⟨hvmid ▸ hi, hpasid, ha.active ▸ hg.covers, ?_, ?_⟩
      · intro vm' hvm'
        exact Option.some.inj (hvm'.symm.trans ha.owner)
      · intro hno
        have howner := hg.flushed (hflush ▸ hno)
        rw [hvmid, hpasid]
        exact (h.entries i hi).bound vm.entity howner.1 howner.2
    | inr hold =>
      obtain ⟨hne, hp, hcovers, howned, hno⟩ := h.placed j hold
      have hc := (hg.kept _).covers _ (hq j hold).unfinished hcovers
      by_cases hji : j.job.vmid = i
      · rw [hji] at hc
        rw [hji, hself]
        refine ⟨hne, hp, ha.active ▸ hc, ?_, hno⟩
        intro vm' hvm'
        rw [hvm j hold hji]
        exact Option.some.inj (hvm'.symm.trans ha.owner)
      · rw [hothers _ hji]
        refine ⟨hne, hp, hc, ?_, hno⟩
        rw [(hg.kept _).owner]
        exact howned
  · intro j hj j' hj' hjj
    cases List.mem_cons.mp hj with
    | inl hnew =>
      cases List.mem_cons.mp hj' with
      | inl hnew' => rw [hnew, hnew']
      | inr hold' =>
        subst hnew
        exact (hvm j' hold' (hjj.symm.trans hvmid)).symm
    | inr hold =>
      cases List.mem_cons.mp hj' with
      | inl hnew' =>
        subst hnew'
        exact hvm j hold (hjj.trans hvmid)
      | inr hold' => exact h.oneVm j hold j' hold' hjj

theorem Inv.grab (h : Inv pasidOf s) {env : Ids.Env} {vm : Vm} {t : SchedFence} {sync : Sync}
    {job : CommandRing.Job} (hpasid : vm.pasid = pasidOf vm.entity) (hq : s.Quiet env.signaled) :
    Inv pasidOf (s.grab env vm t sync job) := by
  unfold Machine.grab
  cases hg : Ids.vmidGrab env vm t.ring (.finished t) s.mgr sync (grabJob job) with
  | mk r rest =>
    obtain ⟨m', sync', j⟩ := rest
    have hpool : PoolInv m' := h.pool.samePool (Ids.vmidGrab_spec hg).1
    obtain ⟨hmissed, hgrants⟩ := Ids.vmidGrab_grants hg
    cases r with
    | error e => exact h.allKept hq hpool ((hmissed fun i hi => (by cases hi)).kept)
    | ok o =>
      cases o with
      | none => exact h.allKept hq hpool ((hmissed fun i hi => (by cases hi)).kept)
      | some i =>
        obtain ⟨m₁, job₁, -, hgrant, hassign⟩ := hgrants i rfl
        obtain ⟨⟨id, rfl, ha⟩, rfl⟩ := Ids.vmidAssign_eq hassign
        have hi : i ≠ 0 := by
          have hbounds := Ids.vmidGrab_bounds h.pool hg
          omega
        exact h.assign hq hi hpool hgrant ha rfl hpasid rfl

/-! ### A submission -/

/-- What a job relies on is bound when its IBs are committed. -/
theorem Inv.bound (h : Inv pasidOf s) {env : Env} {j : Granted}
    (hj : Placed pasidOf s.log (s.mgr.ids j.job.vmid) j) {packets more : List Packet}
    (hmore : lastBind more j.job.vmid = lastBind packets j.job.vmid) {s₁ : Machine}
    (hf : Flushed s env j.job packets s₁) :
    lastBind (s.log ++ more) j.job.vmid = some j.job.pasid := by
  obtain ⟨id', -, hrec⟩ := hf.same
  rw [lastBind_append, hmore]
  cases hrec.binds with
  | inl hb => rw [hb.1, Option.some_or]
  | inr hb =>
    rw [hb.1, Option.none_or]
    cases hf.bound with
    | inl hbind =>
      rw [hb.1] at hbind
      cases hbind
    | inr hno =>
      cases hno with
      | inl hmapped =>
        -- the record has the pasid, and a fence of its mapping
        unfold Machine.pasidMappingNeeded Machine.ringEnv at hmapped
        simp only [Bool.or_eq_false_iff, bne_eq_false_iff_eq, Bool.not_eq_false'] at hmapped
        rw [← hmapped.2.1]
        apply (h.entries _ hj.vmid).mapped
        intro hnone
        rw [hnone] at hmapped
        cases hmapped.2.2
      | inr hskip =>
        -- no flush and no synchronization: the job needs no flush
        apply hj.noFlush
        have hsync := hskip.2
        unfold Machine.needPipeSync vmNeedPipelineSync at hsync
        rw [if_neg hj.vmid] at hsync
        simp only [Bool.or_eq_false_iff] at hsync
        exact hsync.2.2

/-- The submission of a job is committed. -/
theorem Inv.commit (h : Inv pasidOf s) {j : Granted}
    (hj : Placed pasidOf s.log (s.mgr.ids j.job.vmid) j)
    (hvm : ∀ j' ∈ s.pending, j'.job.vmid = j.job.vmid → j'.vm = j.vm)
    {packets more : List Packet} {id' : Vmid}
    (hrec : Recorded j.job packets (s.mgr.ids j.job.vmid) id')
    (hmore : ∀ v, lastBind (packets ++ more) v = lastBind packets v)
    (hbound : lastBind (s.log ++ (packets ++ more)) j.job.vmid = some j.job.pasid) :
    Inv pasidOf { s with
      mgr := s.mgr.setId j.job.vmid id'
      log := s.log ++ (packets ++ more) } := by
  have hself : (s.mgr.setId j.job.vmid id').ids j.job.vmid = id' := Ids.setId_ids _ _ _
  have hothers : ∀ v, v ≠ j.job.vmid → (s.mgr.setId j.job.vmid id').ids v = s.mgr.ids v :=
    fun v hv => Function.update_of_ne hv _ _
  have hnone : ∀ v, v ≠ j.job.vmid → lastBind (packets ++ more) v = none := fun v hv => by
    rw [hmore, hrec.others v hv]
  have hentry := h.entries j.job.vmid hj.vmid
  constructor
  · exact h.pool.samePool (.setId _ _ _)
  · intro v hv
    dsimp only
    by_cases hvj : v = j.job.vmid
    · subst hvj
      rw [hself]
      constructor
      · intro vm howner _
        rw [hbound, hj.pasid, hj.owned vm (hrec.owner ▸ howner)]
      · intro hmap
        cases hrec.binds with
        | inl hb => rw [hbound, hb.2]
        | inr hb =>
          rw [lastBind_append, hmore, hb.1, Option.none_or, hb.2.1]
          exact hentry.mapped (hb.2.2 ▸ hmap)
      · intro f hf
        cases hrec.flushes with
        | inl hsame =>
          exact (hentry.flushed f (hsame ▸ hf)).mono (List.prefix_append s.log _).isInfix
        | inr hnew =>
          obtain ⟨f', hf', hc⟩ := hnew
          obtain rfl : f' = f := Option.some.inj (hf'.symm.trans hf)
          exact hc.mono ⟨s.log, more, List.append_assoc _ _ _⟩
    · rw [hothers v hvj]
      exact (h.entries v hv).more (hnone v hvj)
  · intro j' hj'
    dsimp only
    obtain ⟨hvmid, hp, hcovers, howned, hno⟩ := h.placed j' hj'
    by_cases hjj : j'.job.vmid = j.job.vmid
    · rw [hjj] at hcovers howned ⊢
      rw [hself]
      refine ⟨hvmid, hp, hrec.active ▸ hcovers, hrec.owner ▸ howned, fun _ => ?_⟩
      rw [hjj, hbound, hj.pasid, hp, hvm j' hj' hjj]
    · rw [hothers _ hjj]
      refine ⟨hvmid, hp, hcovers, howned, ?_⟩
      rw [lastBind_append, hnone _ hjj, Option.none_or]
      exact hno
  · exact h.oneVm

/-- A job is taken from those that wait, and scheduled. -/
theorem Inv.schedule (h : Inv pasidOf s) {env : Env} {ibs : List Ib} {j : Granted}
    {rest : List Granted} (htakes : s.Takes j rest) {r : Except Errno Unit}
    (hkeeps : r = .ok () ∨ ¬ LosesRecord s env ibs j)
    (hs : Machine.Scheduled { s with pending := rest } env j.fence.ring ibs j.job r s') :
    Inv pasidOf s' ∧ (r = .ok () → Truthful s' j) := by
  obtain ⟨hj, hrest⟩ := Takes.mem htakes
  have hplaced := h.placed j hj
  have hbase := h.subset hrest
  cases hs with
  | early hsame => exact ⟨hbase.sameBut hsame, fun hc => (by cases hc)⟩
  | @late r packets s₁ s' hf hcall hsame =>
    constructor
    · cases hf.records with
      | inl hmgr =>
        obtain ⟨id', heq, -⟩ := hf.same
        have hinv : Inv pasidOf s₁ := by
          apply hbase.congr hmgr
          · rw [heq]
          · rw [heq]
        exact (hinv.resetJob (some j.job)).sameBut hsame
      | inr hrec =>
        cases hkeeps with
        | inl hok => cases hok
        | inr hkeeps => exact absurd ⟨hcall.1, hcall.2.1, hcall.2.2.1, hrec, hcall.2.2.2⟩ hkeeps
    · intro hc
      cases hc
  | @done packets seq s₁ s' hf hsame =>
    obtain ⟨id', heq, hrec⟩ := hf.same
    have hmore : ∀ v, lastBind (packets ++ (bodyPackets ibs (some j.job) ++
        [.fence j.fence.ring seq])) v = lastBind packets v := by
      intro v
      rw [lastBind_append, lastBind_body, Option.none_or]
    have hbound := hbase.bound hplaced (hmore _) hf
    have hcommit := hbase.commit hplaced
      (fun j' hj' hjj => h.oneVm j' (hrest j' hj') j hj hjj) hrec hmore hbound
    have hlog : s'.log = s.log ++ (packets ++ (bodyPackets ibs (some j.job) ++
        [.fence j.fence.ring seq])) := by
      rw [hsame, heq, List.append_assoc]
    have hinv : Inv pasidOf s' := by
      apply hcommit.congr
      · rw [hsame, heq]
      · rw [hsame, heq]
      · exact hlog
    refine ⟨hinv, fun _ => ⟨?_, (hinv.entries _ hplaced.vmid).flushed⟩⟩
    rw [hlog]
    exact hbound

/-- The driver's own submissions use VMID 0. -/
theorem Inv.kernel (h : Inv pasidOf s) (env : Env) (ring : ℕ) (ibs : List Ib)
    {job : Option CommandRing.Job} (hjob : ∀ j ∈ job, j.vm = false ∧ j.vmid = 0) :
    Inv pasidOf (s.ibSchedule env ring ibs job).2 := by
  cases job with
  | none =>
    obtain ⟨more, hmore, hsame⟩ := s.ibSchedule_none env ring ibs
    have hzero := h.zero (s.mgr.ids 0) fun v _ => hmore v
    rw [setId_self] at hzero
    exact hzero.sameBut hsame
  | some job =>
    have hvmid : job.vmid = 0 := (hjob job rfl).2
    have hs := s.ibSchedule_scheduled env ring ibs job
    generalize (s.ibSchedule env ring ibs (some job)).1 = r at hs
    generalize (s.ibSchedule env ring ibs (some job)).2 = s' at hs ⊢
    cases hs with
    | early hsame => exact h.sameBut hsame
    | @late r packets s₁ s' hf _ hsame =>
      obtain ⟨id', heq, -⟩ := hf.same
      have hnone : ∀ v, v ≠ 0 → lastBind [] v = none := fun _ _ => rfl
      have hzero := h.zero id' hnone
      have hinv : Inv pasidOf s₁ := by
        apply hzero.congr
        · rw [heq, hvmid]
        · rw [heq]
        · rw [heq, List.append_nil]
      exact (hinv.resetJob (some job)).sameBut hsame
    | @done packets seq s₁ s' hf hsame =>
      obtain ⟨id', heq, hrec⟩ := hf.same
      have hmore : ∀ v, v ≠ 0 → lastBind (packets ++ bodyPackets ibs (some job) ++
          [.fence ring seq]) v = none := by
        intro v hv
        rw [List.append_assoc, lastBind_append, lastBind_body, Option.none_or]
        exact hrec.others v (hvmid ▸ hv)
      apply (h.zero id' hmore).congr
      · rw [hsame, heq, hvmid]
      · rw [hsame, heq]
      · rw [hsame, heq]

/-! ### Runs -/

theorem Entry.zero (pasidOf : ℕ → ℕ) (log : List Packet) (v : ℕ) :
    Entry pasidOf log v Ids.Vmid.zero :=
  ⟨fun _ hc => (by cases hc), fun hc => absurd rfl hc, fun _ hc => (by cases hc)⟩

theorem Inv.initial (h : Initial s) : Inv pasidOf s := by
  obtain ⟨hmgr, hpending, -⟩ := h
  constructor
  · rw [hmgr]
    exact Ids.poolInv_init
  · intro v _
    rw [hmgr, Ids.vmidMgrInit_ids]
    exact .zero pasidOf s.log v
  · rw [hpending]
    exact fun _ hc => (by cases hc)
  · rw [hpending]
    exact fun _ hc => (by cases hc)

theorem Inv.step (h : Inv pasidOf s) {e : Event} (hkeeps : KeepsRecords s e)
    (hs : Step pasidOf s e s') : Inv pasidOf s' := by
  cases e with
  | grab env vm fence sync job =>
    obtain ⟨-, -, hpasid, hq, rfl⟩ := hs
    exact h.grab hpasid hq
  | schedule env ibs j =>
    obtain ⟨rest, htakes, rfl⟩ := hs
    exact (h.schedule htakes (.inr hkeeps) (Machine.ibSchedule_scheduled _ _ _ _ _)).1
  | kernel env ring ibs job =>
    obtain ⟨hjob, rfl⟩ := hs
    exact h.kernel env ring ibs hjob
  | skip j =>
    obtain ⟨rest, htakes, rfl⟩ := hs
    exact h.subset (Takes.mem htakes).2
  | allocReserved vm =>
    obtain ⟨r, m, halloc, rfl⟩ := hs
    obtain ⟨r', m', halloc', hpool⟩ := Ids.poolInv_allocReserved h.pool vm
    rw [halloc] at halloc'
    cases halloc'
    exact h.pool_congr hpool (Ids.vmidAllocReserved_ids halloc)
  | freeReserved vm =>
    cases hs
    exact h.pool_congr (Ids.poolInv_freeReserved h.pool vm) (Ids.vmidFreeReserved_ids s.mgr vm)
  | reset vmid =>
    cases hs
    exact h.reset vmid
  | gpuReset =>
    cases hs
    exact h.congr rfl rfl rfl

theorem Inv.reach (h : Transition.Reach Initial (Step pasidOf) KeepsRecords s) : Inv pasidOf s :=
  h.invariant (fun _ hi => .initial hi) fun _ _ _ hinv hkeeps hs => hinv.step hkeeps hs

end Invariant

/-- In every run in which no call loses what it recorded: when the submission of a job is
committed, the last `GSPKT_VM_BIND` committed for its VMID has its pasid, and the flush that
`id->last_flush` stands for was committed. -/
theorem ibSchedule_truthful (pasidOf : ℕ → ℕ) {s s' : Machine}
    (h : Transition.Reach Initial (Step pasidOf) KeepsRecords s) (env : Env) (ibs : List Ib)
    {j : Granted} {rest : List Granted} (htakes : s.Takes j rest)
    (hs : { s with pending := rest }.ibSchedule env j.fence.ring ibs (some j.job) = (.ok (), s')) :
    Truthful s' j := by
  have hsched := Machine.ibSchedule_scheduled { s with pending := rest } env j.fence.ring ibs j.job
  rw [hs] at hsched
  exact ((Inv.reach h).schedule htakes (.inl rfl) hsched).2 rfl

/-- A new device. -/
def fresh : Machine := ⟨Ids.vmidMgrInit, 0, fun _ => 0, [], []⟩

/-- A grab of a VMID for a job of VM 1, when these fences are signaled. -/
def vmGrab (signaled : Fence → Bool) (seqno : ℕ) : Event :=
  .grab ⟨signaled, true, true, true⟩ ⟨1, false, 7⟩ ⟨1, 0, seqno, false⟩ Sync.create
    ⟨true, 0, false, 4096, 0, 0, 0⟩

/-- The job then: it has VMID 1, and has to flush it. -/
def vmGranted (seqno : ℕ) : Granted :=
  ⟨⟨true, 1, true, 4096, 7, 0, 0⟩, 1, ⟨1, 0, seqno, false⟩⟩

/-- One IB. -/
def oneIb : List Ib := [⟨8192, 16, 0⟩]

/-- A call of `gsgpu_ib_schedule`, by the outcome of its last fence. -/
def call (signaled : Fence → Bool) (fence : FenceOutcome) : Env :=
  ⟨true, none, false, signaled, .done, fence⟩

/-- The first job of a VM. -/
theorem ibSchedule_truthful_first : ∃ s s',
    Transition.Reach Initial (Step fun _ => 7) KeepsRecords s ∧ s.pending = [vmGranted 1] ∧
    { s with pending := [] }.ibSchedule (call (fun _ => false) .done) 0 oneIb
      (some (vmGranted 1).job) = (.ok (), s') ∧ Truthful s' (vmGranted 1) := by
  have hfresh : Transition.Reach Initial (Step fun _ => 7) KeepsRecords fresh :=
    .start ⟨rfl, rfl, rfl⟩
  have hgrab := hfresh.next (e := vmGrab (fun _ => false) 1) trivial
    ⟨rfl, rfl, rfl, fun _ hj => (by cases hj), rfl⟩
  exact ⟨_, _, hgrab, rfl, rfl, ibSchedule_truthful _ hgrab (call (fun _ => false) .done) oneIb
    (j := vmGranted 1) ⟨[], [], rfl, rfl⟩ rfl⟩

/-- The first job's call fails at its last fence: its `GSPKT_VM_BIND` is discarded, but its VMID
has the pasid. The fence of the mapping is signaled with the next submission of the ring, and the
second job's pasid is then taken to be mapped. -/
theorem second_job_unbound : ∃ s s',
    Transition.Reach Initial (Step fun _ => 7) (fun _ _ => True) s ∧ s.pending = [vmGranted 2] ∧
    { s with pending := [] }.ibSchedule
      (call (fun f => f = Fence.hw 0 1 ∨ f = Fence.hw 0 2) .done) 0 oneIb
      (some (vmGranted 2).job) = (.ok (), s') ∧
    lastBind s'.log 1 = none ∧ ¬ Truthful s' (vmGranted 2) := by
  have hfresh : Transition.Reach Initial (Step fun _ => 7) (fun _ _ => True) fresh :=
    .start ⟨rfl, rfl, rfl⟩
  have hreserved := hfresh.next (e := Event.allocReserved 1) trivial ⟨_, _, rfl, rfl⟩
  have hgrab := hreserved.next (e := vmGrab (fun _ => false) 1) trivial
    ⟨rfl, rfl, rfl, fun _ hj => (by cases hj), rfl⟩
  have hfailed := hgrab.next (e := Event.schedule (call (fun _ => false) .noMemory) oneIb (vmGranted 1))
    trivial ⟨_, ⟨[], [], rfl, rfl⟩, rfl⟩
  have hkernel := hfailed.next (e := Event.kernel (call (fun _ => false) .done) 0 oneIb none) trivial
    ⟨fun _ hj => (by cases hj), rfl⟩
  have hagain := hkernel.next (e := vmGrab (fun f => f = Fence.finished ⟨1, 0, 1, false⟩) 2) trivial
    ⟨rfl, rfl, rfl, fun _ hj => (by cases hj), rfl⟩
  refine ⟨_, _, hagain, rfl, rfl, rfl, ?_⟩
  intro htrue
  cases htrue.bound

end Gsgpu.Submit
