import Gsgpu.Isolation.Granted
import Gsgpu.Isolation.Scheduled

/-! The rings execute what was committed, and the VMIDs are isolated in every run. -/
namespace Gsgpu.Isolation
open Fifo
open Ids (VmidMgr Vmid Vm Covers Unfinished Kept AllKept Missed Grants Source Assigned IdleOn
  UpTo lastFlushPending)
open Machine

/-! ### A packet is executed -/

/-- What a packet does to the TLBs and the page-directory registers. -/
def Flushes (p : Packet) (v : ℕ) : Prop := ∃ j pd, p = .vm j (.vmFlush v pd)

/-- A ring executes its next packet. -/
structure Executed (s s' : Machine) (ring : ℕ) (p : Packet) : Prop where
  next : s.next ring = some p
  mgr : s'.mgr = s.mgr
  waiting : s'.waiting = s.waiting
  log : s'.log = s.log
  done : s'.done = Function.update s.done ring (s.done ring + 1)
  same : ∀ v, ¬ Flushes p v → s'.pdReg v = s.pdReg v ∧ s'.tlb v = s.tlb v
  flush : ∀ j v pd, p = .vm j (.vmFlush v pd) → s'.pdReg v = pd ∧ s'.tlb v = some s.done

section Execution
variable {ringOf : ℕ → ℕ} {E : Epochs} {s s' : Machine} {p : Packet} {ring : ℕ}

theorem execute_executed (hnext : s.next ring = some p) : Executed s (s.execute ring) ring p := by
  unfold Machine.execute
  rw [hnext]
  cases p with
  | vm j packet =>
    cases packet with
    | vmFlush v pd =>
      refine ⟨hnext, rfl, rfl, rfl, rfl, ?_, ?_⟩
      · intro v' hv
        have hne : v' ≠ v := fun hc => hv ⟨j, pd, by rw [hc]⟩
        exact ⟨Function.update_of_ne hne _ _, Function.update_of_ne hne _ _⟩
      · intro j' v' pd' heq
        cases heq
        exact ⟨Function.update_self v _ s.pdReg, Function.update_self v _ s.tlb⟩
    | _ => exact ⟨hnext, rfl, rfl, rfl, rfl, fun _ _ => ⟨rfl, rfl⟩, fun _ _ _ hc => (by cases hc)⟩
  | _ => exact ⟨hnext, rfl, rfl, rfl, rfl, fun _ _ => ⟨rfl, rfl⟩, fun _ _ _ hc => (by cases hc)⟩

namespace Executed

theorem done_le (h : Executed s s' ring p) (r : ℕ) : s.done r ≤ s'.done r := by
  rw [h.done]
  by_cases hr : r = ring
  · subst hr
    rw [Function.update_self]
    exact Nat.le_succ _
  · rw [Function.update_of_ne hr]

theorem mem_executed (h : Executed s s' ring p) {r : ℕ} {p' : Packet} (hp : p' ∈ s'.executed r) :
    p' ∈ s.executed r ∨ r = ring ∧ p' = p := by
  unfold Machine.executed at hp ⊢
  rw [h.log, h.done] at hp
  by_cases hr : r = ring
  · subst hr
    rw [Function.update_self, mem_take_succ h.next] at hp
    exact hp.imp_right fun heq => ⟨rfl, heq⟩
  · rw [Function.update_of_ne hr] at hp
    exact .inl hp

theorem later (h : Executed s s' ring p) (ho : Orderly ringOf s) : Later s s' where
  log r := ⟨[], by rw [h.log, List.append_nil]⟩
  done := h.done_le
  tlb v d hd := by
    by_cases hv : Flushes p v
    · obtain ⟨j, pd, heq⟩ := hv
      exact ⟨s.done, (h.flush j v pd heq).2, ho.snapshot v d hd⟩
    · refine ⟨d, ?_, fun _ => le_rfl⟩
      rw [(h.same v hv).2]
      exact hd
  newer t ht := by
    rw [h.log] at ht
    exact .inl ht

theorem orderly (h : Executed s s' ring p) (ho : Orderly ringOf s) : Orderly ringOf s' where
  nodup := by rw [h.log]; exact ho.nodup
  done_le r := by
    rw [h.log, h.done]
    by_cases hr : r = ring
    · subst hr
      rw [Function.update_self]
      exact (List.getElem?_eq_some_iff.mp h.next).1
    · rw [Function.update_of_ne hr]
      exact ho.done_le r
  ends := by rw [h.log]; exact ho.ends
  inOrder := by rw [h.log]; exact ho.inOrder
  ib := by rw [h.log]; exact ho.ib
  vm := by rw [h.log]; exact ho.vm
  flush := by rw [h.log]; exact ho.flush
  fence := by rw [h.log]; exact ho.fence
  waiting := by rw [h.log, h.waiting]; exact ho.waiting
  apart := by rw [h.waiting]; exact ho.apart
  snapshot v d hd r := by
    by_cases hv : Flushes p v
    · obtain ⟨j, pd, heq⟩ := hv
      cases (h.flush j v pd heq).2.symm.trans hd
      exact h.done_le r
    · rw [(h.same v hv).2] at hd
      exact (ho.snapshot v d hd r).trans (h.done_le r)

/-- The flush that is executed cleans the TLB. -/
theorem settled (h : Executed s s' ring p) (ho : Orderly ringOf s) {L : User} {f : Fence}
    (hs : Settled s L f) : Settled s' L f := by
  by_cases hp : flushOf L = p
  · cases hs.2 with
    | inl hclean => exact ⟨hs.1.later (h.later ho), .inl (hclean.later hs.1 (h.later ho))⟩
    | inr hawaited =>
      refine ⟨hs.1.later (h.later ho), .inl ⟨s.done, (h.flush L _ _ hp.symm).2, ?_⟩⟩
      intro t ht hend
      rw [h.log] at hend ⊢
      cases hawaited.2 t ht hend with
      | inl hfin => exact hfin
      | inr hring =>
        have hlog : flushOf L ∈ s.log ring := hp ▸ List.mem_of_getElem? h.next
        have hr := (ho.known_of_vm hlog).1
        have hnext : (s.log t.ring)[s.done t.ring]? = some (flushOf L) := by
          rw [hring.1, hr, hp]
          exact h.next
        apply hring.2.next hnext
        intro hc
        cases hc
  · apply hs.later (h.later ho)
    intro hexec
    exact (h.mem_executed hexec).resolve_right fun hc => hp hc.2

theorem advances (h : Executed s s' ring p) (ho : Orderly ringOf s) : Advances s s' where
  toLater := h.later ho
  known j hj := by
    unfold Known at hj ⊢
    rw [h.waiting, h.log] at hj
    exact hj
  waiting j hj := by
    rw [h.waiting] at hj
    exact hj
  record v := by
    rw [h.mgr]
    exact .refl _
  settled _ _ := h.settled ho

/-- The registers and TLBs after a packet. -/
theorem register (h : Executed s s' ring p) (hi : Inv ringOf E s) {g : User}
    (hg : flushOf g ∈ s'.executed g.fence.ring) : ∃ f, Shown E s' g.job.vmid f := by
  have ho := hi.toOrderly
  by_cases hv : Flushes p g.job.vmid
  · obtain ⟨j, pd, heq⟩ := hv
    -- the packet is a flush of the VMID, and of the last epoch
    have hlog : p ∈ s.log ring := List.mem_of_getElem? h.next
    have hj : p = flushOf j := by
      rw [heq] at hlog ⊢
      exact ho.flush _ j _ pd hlog
    have hjv : j.job.vmid = g.job.vmid := by
      rw [heq] at hj
      unfold flushOf at hj
      injection hj with _ hpacket
      injection hpacket with hv _
      exact hv.symm
    rw [hj] at hlog
    obtain ⟨hjr, hknown⟩ := ho.known_of_vm hlog
    subst hjr
    have hnot : flushOf j ∉ s.executed j.fence.ring :=
      not_mem_take (ho.nodup _) (hj ▸ h.next)
    obtain ⟨hpd, htlb⟩ := h.flush j _ _ hj
    rw [hjv] at hpd htlb
    refine ⟨j, ?_, hjv, hpd, ⟨s.done, htlb⟩, ?_⟩
    · unfold Machine.executed
      rw [h.log, h.done, Function.update_self, mem_take_succ h.next]
      exact .inr hj.symm
    · intro g' hg' hv'
      rcases h.mem_executed hg' with hold | ⟨-, heq'⟩
      · have hg'known := (ho.known_of_vm (mem_log_of_executed hold)).2
        have hfin : ¬ s.Finished j.fence := fun hc => hnot (ho.flush_executed hlog hc)
        by_contra hlt
        have hlt := Nat.lt_of_not_le hlt
        have heq := hi.epoch_eq hknown hfin hold (hv'.trans hjv.symm) hlt.le
        omega
      · rw [hj] at heq'
        cases heq'
        exact le_rfl
  · have hold : ∀ g', flushOf g' ∈ s'.executed g'.fence.ring → g'.job.vmid = g.job.vmid →
        flushOf g' ∈ s.executed g'.fence.ring := by
      intro g' hg' hv'
      refine (h.mem_executed hg').resolve_right ?_
      intro hc
      apply hv
      rw [← hv', ← hc.2]
      exact ⟨g', _, rfl⟩
    obtain ⟨f, hf⟩ := hi.register g (hold g hg rfl)
    obtain ⟨hpd, htlb⟩ := h.same _ hv
    refine ⟨f, (h.later ho).mem_executed hf.mem, hf.vmid, hpd.trans hf.pdReg, ?_, ?_⟩
    · rw [htlb]
      exact hf.tlb
    · exact fun g' hg' hv' => hf.last g' (hold g' hg' hv') hv'

end Executed

theorem Inv.execute (h : Inv ringOf E s) (ring : ℕ) : Inv ringOf E (s.execute ring) := by
  cases hnext : s.next ring with
  | none =>
    unfold Machine.execute
    rw [hnext]
    exact h
  | some p =>
    have he := execute_executed hnext
    have ho := h.toOrderly
    apply h.advance (he.orderly ho) (he.advances ho)
    · intro v
      rw [he.mgr]
    · intro j hj _
      rw [he.waiting]
      exact hj
    · intro j hj _
      rw [he.log] at hj
      exact hj
    · exact fun g hg => he.register h hg

end Execution

/-! ### Runs -/

section Steps
variable {ringOf : ℕ → ℕ} {E : Epochs} {s s' : Machine}

theorem Inv.initial (h : Initial s) : Inv ringOf ⟨fun _ => 0, fun _ => 0⟩ s := by
  obtain ⟨hmgr, hwaiting, hrings, htlb⟩ := h
  have hid : ∀ v, s.mgr.ids v = Vmid.zero := by
    intro v
    rw [hmgr]
    exact Ids.vmidMgrInit_ids v
  have hlog : ∀ {r p}, p ∉ s.log r := by
    intro r p hp
    rw [(hrings r).1] at hp
    cases hp
  have hwait : ∀ {j}, j ∉ s.waiting := by
    intro j hj
    rw [hwaiting] at hj
    cases hj
  have hknown : ∀ {j}, ¬ Known s j := fun hj => hj.elim hwait hlog
  have horderly : Orderly ringOf s := by
    constructor
    · intro r
      rw [(hrings r).1]
      exact List.nodup_nil
    · intro r
      rw [(hrings r).2]
      exact Nat.zero_le _
    · exact fun _ _ hc => absurd hc hlog
    · exact fun _ _ hc => absurd hc hlog
    · exact fun _ _ hc => absurd hc hlog
    · exact fun _ _ _ hc => absurd hc hlog
    · exact fun _ _ _ _ hc => absurd hc hlog
    · exact fun _ _ _ _ hc => absurd hc hlog
    · exact fun _ hc => absurd hc hwait
    · rw [hwaiting]
      exact List.Pairwise.nil
    · intro v d hd
      rw [htlb] at hd
      cases hd
  refine ⟨horderly, ?_, ?_, ?_, ?_, ?_, ?_, ?_, ?_, ?_⟩
  · constructor
    · exact fun _ hc => absurd hc hknown
    · exact fun _ hc => absurd hc hknown
    · exact fun _ _ hc => absurd hc hknown
    · exact fun _ _ hc => absurd hc hknown
    · exact fun _ hc => absurd hc hwait
    · exact fun _ hc => absurd hc hknown
  · intro v
    rw [hid]
    rfl
  · exact fun _ hc => absurd hc hwait
  · exact fun _ hc => absurd hc hwait
  · intro v _
    rw [hid]
    exact .inl rfl
  · intro v F hF
    rw [hid] at hF
    cases hF
  · exact fun _ hc => absurd hc hlog
  · exact fun _ hc => absurd hc hknown
  · exact fun _ hc => absurd (mem_log_of_executed hc) hlog

theorem Inv.step (h : Inv ringOf E s) {e : Event} (hgood : SharesFlushed s e)
    (hs : Step ringOf s e s') : ∃ E', Inv ringOf E' s' := by
  cases e with
  | grab env vm fence sync job =>
    obtain ⟨-, -, hvalid, hring, hfresh, hsound, rfl⟩ := hs
    exact h.grab hvalid hring hfresh hsound hgood
  | schedule env j =>
    obtain ⟨henv, hready, before, after, hw, rfl⟩ := hs
    exact ⟨E, h.schedule henv hready hw⟩
  | work t =>
    obtain ⟨hring, hfresh, rfl⟩ := hs
    exact ⟨E, h.work hring hfresh⟩
  | execute ring =>
    cases hs
    exact ⟨E, h.execute ring⟩
  | allocReserved vm =>
    obtain ⟨r, m, halloc, rfl⟩ := hs
    exact ⟨E, h.sameIds (Ids.vmidAllocReserved_ids halloc)⟩
  | freeReserved vm =>
    cases hs
    exact ⟨E, h.sameIds (Ids.vmidFreeReserved_ids s.mgr vm)⟩
  | reset vmid =>
    cases hs
    exact ⟨E, h.reset vmid⟩

theorem Inv.reach (h : Transition.Reach Initial (Step ringOf) SharesFlushed s) :
    ∃ E, Inv ringOf E s := by
  apply h.invariant (I := fun s => ∃ E, Inv ringOf E s)
  · exact fun s hi => ⟨_, .initial hi⟩
  · intro s e s' ⟨E, hinv⟩ hgood hs
    exact hinv.step hgood hs

end Steps

/-- In every run in which a VMID that needs no flush is all that a grab shares: a job that executes
finds its page directory and a TLB that was flushed after its updates, and no job of another VM
executes with its VMID on another ring. -/
theorem executes_isolated (ringOf : ℕ → ℕ) {s : Machine}
    (h : Transition.Reach Initial (Step ringOf) SharesFlushed s) {j : User} (hj : Executes s j) :
    Isolated s j := by
  obtain ⟨E, hinv⟩ := Inv.reach h
  exact hinv.isolated hj

/-- A new device. -/
def device : Machine :=
  ⟨Ids.vmidMgrInit, fun _ => 0, [], fun _ => [], fun _ => 0, fun _ => 0, fun _ => none⟩

/-- The VM of the entity 1. -/
def vm1 : Vm := ⟨1, false, 7⟩

/-- No fence is found signaled. -/
def noneSignaled : Ids.Env := ⟨fun _ => false, true, true, true⟩

/-- A job of the VM. -/
def job : CommandRing.Job := ⟨true, 0, false, 4096, 0, 0, 0⟩

/-- A call of `gsgpu_ib_schedule` whose fences are emitted. -/
def emitted : Submit.Env := ⟨true, none, false, fun _ => false, .done, .done⟩

/-- An update of the page tables of the VM. -/
def update (seqno : ℕ) : SchedFence := ⟨1, 1, seqno, true⟩

/-- The VM's jobs with the VMID 1. -/
def granted (flush : Bool) (fence : SchedFence) (u : ℕ) : User :=
  ⟨⟨⟨true, 1, flush, 4096, 7, 0, 0⟩, 1, fence⟩, some (.finished (update u))⟩

/-- Entity 10 is of ring 0, the other ones of ring 1. -/
def ringOf (entity : ℕ) : ℕ := if entity = 10 then 0 else 1

/-- A grab for a job of the VM, after an update. -/
def grabFor (fence : SchedFence) (u : ℕ) : Event :=
  .grab noneSignaled vm1 fence ⟨[], some (.finished (update u))⟩ job

/-- A run of the VM's jobs, and what was scheduled in it. -/
structure Run (good : Machine → Event → Prop) (s : Machine) (l : List SchedFence) : Prop where
  reach : Transition.Reach Initial (Step ringOf) good s
  ends : ∀ r u, .finish u ∈ s.log r → u ∈ l

namespace Run
variable {good : Machine → Event → Prop} {s : Machine} {l : List SchedFence}

theorem device (good : Machine → Event → Prop) : Run good device [] :=
  ⟨.start ⟨rfl, rfl, fun _ => ⟨rfl, rfl⟩, fun _ => rfl⟩, fun _ _ hu => (by cases hu)⟩

theorem fresh (h : Run good s l) {t : SchedFence}
    (hl : ∀ u ∈ l, u.entity = t.entity → u.seqno < t.seqno)
    (hw : ∀ j ∈ s.waiting, j.fence.entity ≠ t.entity) : s.Fresh t :=
  ⟨fun u hu => hl u (h.ends _ u hu), hw⟩

theorem ends_push (h : Run good s l) (t : SchedFence) (packets : List Packet)
    (hp : ∀ u, .finish u ∉ packets) (r : ℕ) (u : SchedFence)
    (hu : .finish u ∈ (s.push t.ring (packets ++ [.finish t])).log r) : u ∈ t :: l := by
  unfold Machine.push at hu
  dsimp only at hu
  by_cases hr : r = t.ring
  · rw [hr, Function.update_self, List.mem_append, List.mem_append, List.mem_singleton] at hu
    rcases hu with hold | hnew | hend
    · exact List.mem_cons_of_mem _ (h.ends _ u hold)
    · exact absurd hnew (hp u)
    · cases hend
      exact List.mem_cons_self
  · rw [Function.update_of_ne hr] at hu
    exact List.mem_cons_of_mem _ (h.ends r u hu)

theorem work (h : Run good s l) (t : SchedFence) (hgood : good s (.work t))
    (hring : t.ring = ringOf t.entity) (hl : ∀ u ∈ l, u.entity = t.entity → u.seqno < t.seqno)
    (hw : ∀ j ∈ s.waiting, j.fence.entity ≠ t.entity) :
    Run good (s.push t.ring [.finish t]) (t :: l) where
  reach := h.reach.next (e := Event.work t) hgood ⟨hring, h.fresh hl hw, rfl⟩
  ends := h.ends_push t [] fun _ hu => (by cases hu)

theorem execute (h : Run good s l) (ring : ℕ) (hgood : good s (.execute ring)) :
    Run good (s.execute ring) l where
  reach := h.reach.next (e := Event.execute ring) hgood rfl
  ends r u hu := by
    cases hnext : s.next ring with
    | none =>
      unfold Machine.execute at hu
      rw [hnext] at hu
      exact h.ends r u hu
    | some p =>
      rw [(execute_executed hnext).log] at hu
      exact h.ends r u hu

theorem grab (h : Run good s l) (fence : SchedFence) (n : ℕ) (hgood : good s (grabFor fence n))
    (hring : fence.ring = ringOf fence.entity)
    (hl : ∀ u ∈ l, u.entity = fence.entity → u.seqno < fence.seqno)
    (hw : ∀ j ∈ s.waiting, j.fence.entity ≠ fence.entity) :
    Run good (s.grab noneSignaled vm1 fence ⟨[], some (.finished (update n))⟩ job) l where
  reach := h.reach.next (e := grabFor fence n) hgood
    ⟨rfl, rfl, by decide, hring, h.fresh hl hw, fun _ hf => (by cases hf), rfl⟩
  ends r u hu := by
    unfold Machine.grab at hu
    split at hu
    · exact h.ends r u hu
    · exact h.ends r u hu

theorem schedule (h : Run good s l) (j : User) (before after : List User)
    (hgood : good s (.schedule emitted j)) (hready : s.Ready j)
    (hw : s.waiting = before ++ j :: after) :
    Run good (s.schedule emitted j (before ++ after)) (j.fence :: l) where
  reach := h.reach.next (e := Event.schedule emitted j) hgood ⟨rfl, hready, before, after, hw, rfl⟩
  ends r u hu := by
    unfold Machine.schedule at hu
    split at hu
    · refine h.ends_push j.fence _ ?_ r u hu
      intro u hu
      simp at hu
    · exact List.mem_cons_of_mem _ (h.ends r u hu)

end Run

/-- The first job of a VM. -/
theorem executes_isolated_first : ∃ s, Transition.Reach Initial (Step ringOf) SharesFlushed s ∧
    Executes s (granted true ⟨10, 0, 1, false⟩ 1) ∧ Isolated s (granted true ⟨10, 0, 1, false⟩ 1) := by
  have hupdated := ((Run.device SharesFlushed).work (update 1) trivial rfl (by decide)
    (by decide)).execute 1 trivial
  have hgrab := hupdated.grab ⟨10, 0, 1, false⟩ 1 (fun _ _ _ hi => (by cases hi)) rfl (by decide)
    (by decide)
  have hsched := hgrab.schedule (granted true ⟨10, 0, 1, false⟩ 1) [] [] trivial
    (fun t ht => (by cases ht; exact .inl (.head _))) rfl
  have hnext := (((hsched.execute 0 trivial).execute 0 trivial).execute 0 trivial).reach
  exact ⟨_, hnext, .inl rfl, executes_isolated _ hnext (.inl rfl)⟩

/-- Two jobs of the VM take one VMID before either is scheduled, the second one after a later update.
The flush of the first one is then taken to be that of the second, and a third job that needs the
later update does not flush. -/
theorem third_job_unflushed : ∃ s j, Transition.Reach Initial (Step ringOf) (fun _ _ => True) s ∧
    Executes s j ∧ ¬ Isolated s j := by
  have hupdated := ((Run.device fun _ _ => True).work (update 1) trivial rfl (by decide)
    (by decide)).execute 1 trivial
  have hfirst := hupdated.grab ⟨10, 0, 1, false⟩ 1 trivial rfl (by decide) (by decide)
  have hsecond := (hfirst.work (update 2) trivial rfl (by decide) (by decide)).grab
    ⟨11, 1, 1, false⟩ 2 trivial rfl (by decide) (by decide)
  have hsched := hsecond.schedule (granted true ⟨10, 0, 1, false⟩ 1)
    [granted true ⟨11, 1, 1, false⟩ 2] [] trivial
    (fun t ht => (by cases ht; exact .inl (.head _))) rfl
  have hflushed := ((hsched.execute 0 trivial).execute 0 trivial).execute 0 trivial
  have hended := (hflushed.execute 0 trivial).execute 0 trivial
  have hthird := (hended.execute 1 trivial).grab ⟨10, 0, 2, false⟩ 2 trivial rfl (by decide)
    (by decide)
  have hlast := (hthird.schedule (granted false ⟨10, 0, 2, false⟩ 2) []
    [granted true ⟨11, 1, 1, false⟩ 2] trivial
    (fun t ht => (by cases ht; exact .inl (.tail _ (.head _)))) rfl).reach
  refine ⟨_, granted false ⟨10, 0, 2, false⟩ 2, hlast, .inl rfl, ?_⟩
  intro hisolated
  obtain ⟨d, hd, hclean⟩ := hisolated.flushed
  cases hd
  have hmem := hclean (.finished (update 2)) rfl (update 2) ⟨rfl, le_rfl⟩ (.tail _ (.head _))
  cases hmem with
  | tail _ hnone => cases hnone

end Gsgpu.Isolation
