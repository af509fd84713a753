import Gsgpu.Ids.Submit

/-! One call of `gsgpu_ib_schedule`: what it records in its VMID, and what it commits. -/
namespace Gsgpu.Submit
open CommandRing (Engine FenceOutcome)
open CommandRing.Engine (flushNeeded)
open Cs (Ib RingType)
open Ids (VmidMgr Vmid)

/-! ### The log -/

theorem foldl_bindStep (v : ℕ) (log : List Packet) (b : Option ℕ) :
    log.foldl (bindStep v) b = (lastBind log v).or b := by
  unfold lastBind
  induction log generalizing b with
  | nil => rfl
  | cons packet log ih =>
    rw [List.foldl_cons, List.foldl_cons, ih, ih (bindStep v none packet), Option.or_assoc]
    congr 1
    cases packet with
    | vmBind vmid pasid =>
      dsimp only [bindStep]
      split
      · rfl
      · rfl
    | _ => rfl

/-- The later part of the log decides, if it binds the VMID. -/
theorem lastBind_append (log log' : List Packet) (v : ℕ) :
    lastBind (log ++ log') v = (lastBind log' v).or (lastBind log v) := by
  rw [lastBind, List.foldl_append, foldl_bindStep]
  rfl

/-- Packets that bind no VMID. -/
theorem lastBind_eq_none {log : List Packet} (h : ∀ v p, Packet.vmBind v p ∉ log) (v : ℕ) :
    lastBind log v = none := by
  induction log with
  | nil => rfl
  | cons packet log ih =>
    have hrest := ih fun v p hp => h v p (List.mem_cons_of_mem _ hp)
    rw [lastBind, List.foldl_cons, foldl_bindStep, hrest, Option.none_or]
    cases packet with
    | vmBind vmid pasid => exact absurd List.mem_cons_self (h vmid pasid)
    | _ => rfl

theorem FlushCommitted.mono {log log' : List Packet} {v : ℕ} {f : Fence}
    (h : FlushCommitted log v f) (hlog : log <:+: log') : FlushCommitted log' v f := by
  obtain ⟨pdAddr, ring, seq, hf, hin⟩ := h
  exact ⟨pdAddr, ring, seq, hf, hin.trans hlog⟩

/-- The packets of the IBs, the user fence and the last fence bind no VMID. -/
theorem lastBind_body (ibs : List Ib) (job : Option CommandRing.Job) (ring seq v : ℕ) :
    lastBind (Machine.bodyPackets ibs job ++ [.fence ring seq]) v = none := by
  apply lastBind_eq_none
  intro v p hp
  cases job with
  | none => simp [Machine.bodyPackets] at hp
  | some job =>
    unfold Machine.bodyPackets at hp
    split at hp <;> simp at hp

/-! ### One call -/

/-- What a successful `gsgpu_vm_flush` does to the record of its VMID, beside its packets. -/
structure Recorded (job : CommandRing.Job) (packets : List Packet) (id id' : Vmid) : Prop where
  owner : id'.owner = id.owner
  active : id'.active = id.active
  binds : lastBind packets job.vmid = some job.pasid ∧ id'.pasid = job.pasid ∨
    lastBind packets job.vmid = none ∧ id'.pasid = id.pasid ∧ id'.pasidMapping = id.pasidMapping
  flushes : id'.lastFlush = id.lastFlush ∨
    ∃ f, id'.lastFlush = some f ∧ FlushCommitted packets job.vmid f
  others : ∀ v, v ≠ job.vmid → lastBind packets v = none

theorem Recorded.nothing (job : CommandRing.Job) (id : Vmid) : Recorded job [] id id :=
  ⟨rfl, rfl, .inr ⟨rfl, rfl, rfl⟩, .inl rfl, fun _ _ => rfl⟩

theorem setId_self (m : VmidMgr) (v : ℕ) : m.setId v (m.ids v) = m := by
  unfold VmidMgr.setId
  rw [Function.update_eq_self]

/-- Only sequence numbers are used up. -/
def SameBut (s s' : Machine) : Prop := s' = { s with syncSeq := s'.syncSeq }

/-- What a successful `gsgpu_vm_flush` has done. -/
structure Flushed (s : Machine) (env : Env) (job : CommandRing.Job) (packets : List Packet)
    (s' : Machine) : Prop where
  same : ∃ id', s' = { s with mgr := s.mgr.setId job.vmid id', syncSeq := s'.syncSeq } ∧
    Recorded job packets (s.mgr.ids job.vmid) id'
  bound : lastBind packets job.vmid = some job.pasid ∨ s.pasidMappingNeeded env job = false ∨
    s.vmFlushNeeded env job = false ∧ s.needPipeSync env job = false
  records : s'.mgr = s.mgr ∨ s.Records env job

namespace Machine
variable {s s' : Machine} {env : Env} {ring : ℕ} {job : CommandRing.Job}

theorem fenceEmit_sameBut (s : Machine) (ring : ℕ) (o : FenceOutcome) :
    SameBut s (s.fenceEmit ring o).2 := by
  cases o <;> rfl

theorem fenceEmit_done {o : FenceOutcome} {seq : ℕ} (h : s.fenceEmit ring o = (.ok seq, s')) :
    o = .done := by
  cases o with
  | done => rfl
  | noMemory => cases h
  | waitFailed r => cases h

/-- A flush behind the mapping of the pasid, and its fence. -/
theorem flushCommitted_packets (ring seq : ℕ) (h : s.vmFlushNeeded env job = true) :
    FlushCommitted (s.flushPackets env job ++ [.fence ring seq]) job.vmid (.hw ring seq) := by
  refine ⟨job.vmPdAddr, ring, seq, rfl, ?_⟩
  unfold flushPackets
  rw [h, Bool.true_or, if_pos rfl, List.append_assoc]
  exact (List.suffix_append _ _).isInfix

theorem lastBind_flushPackets (s : Machine) (env : Env) (job : CommandRing.Job)
    (more : List Packet) (hmore : ∀ v p, Packet.vmBind v p ∉ more) (v : ℕ) :
    lastBind (s.flushPackets env job ++ more) v =
      if s.pasidMappingNeeded env job = true ∧ job.vmid = v then some job.pasid else none := by
  have hrest : ∀ v p, Packet.vmBind v p ∉ (if s.vmFlushNeeded env job ||
      s.pasidMappingNeeded env job then [.vmFlush job.vmid job.vmPdAddr] else []) ++ more := by
    intro v p hp
    cases List.mem_append.mp hp with
    | inl hfl => split at hfl <;> simp at hfl
    | inr hm => exact hmore v p hm
  unfold flushPackets
  rw [List.append_assoc, lastBind_append, lastBind_eq_none hrest, Option.none_or]
  cases s.pasidMappingNeeded env job with
  | true => simp [lastBind, bindStep]
  | false => simp [lastBind]

theorem vmFlush_error {needPipeSync : Bool} {r : Errno}
    (h : s.vmFlush env ring job needPipeSync = (.error r, s')) : SameBut s s' := by
  unfold vmFlush at h
  split at h
  · cases h
  · split at h
    · split at h
      · next hf =>
        cases h
        have hsame := fenceEmit_sameBut s ring env.flushFence
        rwa [hf] at hsame
      · cases h
    · cases h

/-- The record after a flush and, if it was needed, a mapping. -/
theorem recorded_flush (ring seq c : ℕ) (h : s.vmFlushNeeded env job = true) :
    Recorded job (s.flushPackets env job ++ [.fence ring seq]) (s.mgr.ids job.vmid)
      (if s.pasidMappingNeeded env job = true then
        { s.mgr.ids job.vmid with
          lastFlush := some (.hw ring seq)
          currentGpuResetCount := c
          pasid := job.pasid
          pasidMapping := some (.hw ring seq) }
      else
        { s.mgr.ids job.vmid with
          lastFlush := some (.hw ring seq)
          currentGpuResetCount := c }) := by
  have hb := lastBind_flushPackets s env job [.fence ring seq] (by simp)
  have hf := s.flushCommitted_packets ring seq h
  split
  · next hbind =>
    refine ⟨rfl, rfl, .inl ⟨?_, rfl⟩, .inr ⟨_, rfl, hf⟩, ?_⟩
    · rw [hb, if_pos ⟨hbind, rfl⟩]
    · intro v hv
      rw [hb, if_neg fun hc => hv hc.2.symm]
  · next hbind =>
    refine ⟨rfl, rfl, .inr ⟨?_, rfl, rfl⟩, .inr ⟨_, rfl, hf⟩, ?_⟩
    · rw [hb, if_neg fun hc => hbind hc.1]
    · intro v _
      rw [hb, if_neg fun hc => hbind hc.1]

/-- The record after a mapping without a flush that is waited for. -/
theorem recorded_bind (h : s.pasidMappingNeeded env job = true) :
    Recorded job (s.flushPackets env job) (s.mgr.ids job.vmid)
      { s.mgr.ids job.vmid with pasid := job.pasid, pasidMapping := none } := by
  have hb := lastBind_flushPackets s env job [] (by simp)
  rw [List.append_nil] at hb
  refine ⟨rfl, rfl, .inl ⟨?_, rfl⟩, .inl rfl, ?_⟩
  · rw [hb, if_pos ⟨h, rfl⟩]
  · intro v hv
    rw [hb, if_neg fun hc => hv hc.2.symm]

theorem vmFlush_ok {packets : List Packet}
    (h : s.vmFlush env ring job (s.needPipeSync env job) = (.ok packets, s')) :
    Flushed s env job packets s' := by
  unfold vmFlush at h
  cases hflush : s.vmFlushNeeded env job with
  | true =>
    rw [hflush] at h
    simp only [Bool.not_true, Bool.false_and, Bool.false_eq_true, if_false, if_true] at h
    cases hf : s.fenceEmit ring env.flushFence with
    | mk r s₁ =>
      have hsame : SameBut s s₁ := by
        have hsame := fenceEmit_sameBut s ring env.flushFence
        rwa [hf] at hsame
      rw [hf] at h
      cases r with
      | error r => cases h
      | ok seq =>
        have hdone := fenceEmit_done hf
        have hrec := recorded_flush ring seq s.gpuResetCounter hflush
        have hb := lastBind_flushPackets s env job [.fence ring seq] (by simp) job.vmid
        dsimp only at h
        cases hbind : s.pasidMappingNeeded env job with
        | true =>
          rw [if_pos ⟨hbind, rfl⟩] at hb
          rw [hbind] at hrec h
          cases h
          refine ⟨⟨_, ?_, hrec⟩, .inl hb, .inr (.inl ⟨hflush, hdone⟩)⟩
          rw [hsame]
          simp [recordPasid, recordFlush, setId, VmidMgr.setId]
        | false =>
          rw [hbind] at hrec h
          cases h
          refine ⟨⟨_, ?_, hrec⟩, .inr (.inl hbind), .inr (.inl ⟨hflush, hdone⟩)⟩
          rw [hsame]
          simp [recordFlush, setId]
  | false =>
    rw [hflush] at h
    cases hsync : s.needPipeSync env job with
    | false =>
      rw [hsync] at h
      cases h
      exact ⟨⟨_, by rw [setId_self], .nothing job _⟩, .inr (.inr ⟨hflush, hsync⟩), .inl rfl⟩
    | true =>
      rw [hsync] at h
      simp only [Bool.not_true, Bool.and_false, Bool.false_eq_true, if_false] at h
      cases hbind : s.pasidMappingNeeded env job with
      | true =>
        have hb := lastBind_flushPackets s env job [] (by simp) job.vmid
        rw [List.append_nil, if_pos ⟨hbind, rfl⟩] at hb
        rw [hbind, if_pos rfl] at h
        cases h
        exact ⟨⟨_, rfl, recorded_bind hbind⟩, .inl hb, .inr (.inr ⟨hflush, hsync, hbind⟩)⟩
      | false =>
        have hempty : s.flushPackets env job = [] := by
          unfold flushPackets
          simp [hbind, hflush]
        rw [hbind, hempty] at h
        simp only [Bool.false_eq_true, if_false] at h
        cases h
        exact ⟨⟨_, by rw [setId_self], .nothing job _⟩, .inr (.inl hbind), .inl rfl⟩

/-- What a call of `gsgpu_ib_schedule` for a job can come to. -/
inductive Scheduled (s : Machine) (env : Env) (ring : ℕ) (ibs : List Ib)
    (job : CommandRing.Job) : Except Errno Unit → Machine → Prop
  | early {r : Errno} {s' : Machine} : SameBut s s' → Scheduled s env ring ibs job (.error r) s'
  | late {r : Errno} {packets : List Packet} {s₁ s' : Machine} :
      Flushed s env job packets s₁ →
      ibs.length ≠ 0 ∧ env.ready = true ∧ env.alloc = none ∧ env.fence ≠ .done →
      SameBut (s₁.resetJob (some job)) s' → Scheduled s env ring ibs job (.error r) s'
  | done {packets : List Packet} {seq : ℕ} {s₁ s' : Machine} :
      Flushed s env job packets s₁ →
      SameBut { s₁ with
        log := s₁.log ++ (packets ++ bodyPackets ibs (some job) ++ [.fence ring seq]) } s' →
      Scheduled s env ring ibs job (.ok ()) s'

theorem resetJob_sameBut {s' : Machine} (h : SameBut s s') (job : Option CommandRing.Job) :
    SameBut (s.resetJob job) (s'.resetJob job) := by
  rw [h]
  cases job with
  | none => rfl
  | some job =>
    unfold resetJob
    dsimp only
    split
    · rfl
    · rfl

theorem ibSchedule_scheduled (s : Machine) (env : Env) (ring : ℕ) (ibs : List Ib)
    (job : CommandRing.Job) :
    Scheduled s env ring ibs job (s.ibSchedule env ring ibs (some job)).1
      (s.ibSchedule env ring ibs (some job)).2 := by
  unfold ibSchedule
  by_cases hibs : ibs.length = 0
  · rw [if_pos hibs]
    exact .early rfl
  rw [if_neg hibs]
  cases hready : env.ready with
  | false => exact .early rfl
  | true =>
    simp only [Bool.not_true, Bool.false_eq_true, if_false]
    split
    · exact .early rfl
    cases halloc : env.alloc with
    | some r => exact .early rfl
    | none =>
      have hflush : s.flush env ring (some job) =
        s.vmFlush env ring job (s.needPipeSync env job) := rfl
      rw [hflush]
      cases hf : s.vmFlush env ring job (s.needPipeSync env job) with
      | mk r s₁ =>
        cases r with
        | error r => exact .early (vmFlush_error hf)
        | ok packets =>
          have hdone := vmFlush_ok hf
          have hsame := fenceEmit_sameBut s₁ ring env.fence
          dsimp only
          cases hfence : s₁.fenceEmit ring env.fence with
          | mk r s₂ =>
            rw [hfence] at hsame
            cases r with
            | error r =>
              apply Scheduled.late hdone ⟨hibs, hready, halloc, ?_⟩ (resetJob_sameBut hsame _)
              intro hd
              rw [hd] at hfence
              cases hfence
            | ok seq =>
              have hlog : SameBut
                  { s₁ with
                    log := s₁.log ++ (packets ++ bodyPackets ibs (some job) ++ [.fence ring seq]) }
                  { s₂ with
                    log := s₂.log ++ (packets ++ bodyPackets ibs (some job) ++ [.fence ring seq]) } := by
                change SameBut s₁ s₂ at hsame
                rw [hsame]
                rfl
              exact .done hdone hlog

/-- A submission without a job binds no VMID. -/
theorem ibSchedule_none (s : Machine) (env : Env) (ring : ℕ) (ibs : List Ib) :
    ∃ more, (∀ v, lastBind more v = none) ∧
      SameBut { s with log := s.log ++ more } (s.ibSchedule env ring ibs none).2 := by
  have hnone : ∃ more, (∀ v, lastBind more v = none) ∧
      SameBut { s with log := s.log ++ more } s := by
    refine ⟨[], fun _ => rfl, ?_⟩
    rw [List.append_nil]
    rfl
  unfold ibSchedule
  split
  · exact hnone
  split
  · exact hnone
  split
  · exact hnone
  split
  · exact hnone
  · have hsame := fenceEmit_sameBut s ring env.fence
    dsimp only [flush]
    cases hfence : s.fenceEmit ring env.fence with
    | mk r s₁ =>
      rw [hfence] at hsame
      change SameBut s s₁ at hsame
      cases r with
      | error r =>
        refine ⟨[], fun _ => rfl, ?_⟩
        rw [List.append_nil]
        exact hsame
      | ok seq =>
        refine ⟨_, fun v => lastBind_body ibs none ring seq v, ?_⟩
        dsimp only
        rw [hsame]
        rfl

/-! ### The words -/

theorem fenceEmit_ok {o : FenceOutcome} {seq : ℕ} (h : s.fenceEmit ring o = (.ok seq, s')) :
    seq = s.nextSeq ring ∧ s'.syncSeq ring = seq := by
  cases o with
  | done =>
    cases h
    exact ⟨rfl, Function.update_self _ _ _⟩
  | noMemory => cases h
  | waitFailed r => cases h

theorem flushPackets_words (s : Machine) (env : Env) (job : CommandRing.Job) (type : RingType)
    (fenceAddr : ℕ) (needPipeSync : Bool)
    (h : s.vmFlushNeeded env job = true ∨ needPipeSync = true) :
    (s.flushPackets env job).flatMap (Packet.words type fenceAddr) =
      Engine.flushPackets (s.ringEnv env job) type job needPipeSync := by
  have hcond : (!flushNeeded (s.ringEnv env job) job && !needPipeSync) = false := by
    cases h with
    | inl hflush =>
      change flushNeeded (s.ringEnv env job) job = true at hflush
      rw [hflush, Bool.not_true, Bool.false_and]
    | inr hsync => rw [hsync, Bool.not_true, Bool.and_false]
  unfold Engine.flushPackets
  rw [hcond]
  unfold flushPackets pasidMappingNeeded vmFlushNeeded
  rw [List.flatMap_append]
  congr 1
  · split
    · exact List.flatMap_singleton _ _
    · rfl
  · split
    · exact List.flatMap_singleton _ _
    · rfl

theorem vmFlush_words {packets : List Packet}
    (h : s.vmFlush env ring job (s.needPipeSync env job) = (.ok packets, s')) {e : Engine}
    (he : e.syncSeq = s.syncSeq ring) :
    packets.flatMap (Packet.words e.ring.type e.fenceAddr) =
        (e.flushWords (s.ringEnv env job) (some job)).2 ∧
      s'.syncSeq ring = (e.flushWords (s.ringEnv env job) (some job)).1 := by
  have hsync : s.needPipeSync env job = ((s.ringEnv env job).schedSync ||
    CommandRing.Engine.vmNeedPipelineSync (s.ringEnv env job) job) := rfl
  have hneeded : flushNeeded (s.ringEnv env job) job = s.vmFlushNeeded env job := rfl
  unfold vmFlush at h
  unfold Engine.flushWords
  dsimp only
  rw [← hsync, hneeded]
  cases hflush : s.vmFlushNeeded env job with
  | true =>
    have hwords := s.flushPackets_words env job e.ring.type e.fenceAddr
      (s.needPipeSync env job) (.inl hflush)
    rw [hflush] at h
    simp only [Bool.not_true, Bool.false_and, Bool.false_eq_true, if_false, if_true] at h
    cases hf : s.fenceEmit ring env.flushFence with
    | mk r s₁ =>
      rw [hf] at h
      cases r with
      | error r => cases h
      | ok seq =>
        obtain ⟨hseq, hsync₁⟩ := fenceEmit_ok hf
        have hnext : e.nextSeq = seq := by
          rw [hseq, Engine.nextSeq, he]
          rfl
        dsimp only at h
        rw [if_pos rfl, hnext]
        cases h
        constructor
        · rw [List.flatMap_append, hwords, List.flatMap_singleton, Engine.fenceWords, hnext]
          rfl
        · split
          · exact hsync₁
          · exact hsync₁
  | false =>
    rw [hflush] at h
    rw [if_neg Bool.false_ne_true]
    cases hneed : s.needPipeSync env job with
    | false =>
      rw [hneed] at h
      cases h
      constructor
      · unfold Engine.flushPackets
        rw [hneeded, hflush]
        rfl
      · exact he.symm
    | true =>
      rw [hneed] at h
      simp only [Bool.not_true, Bool.and_false, Bool.false_eq_true, if_false] at h
      cases h
      constructor
      · exact s.flushPackets_words env job e.ring.type e.fenceAddr true (.inr rfl)
      · split
        · exact he.symm
        · exact he.symm

theorem bodyPackets_words (ibs : List Ib) (job : Option CommandRing.Job) (type : RingType)
    (fenceAddr : ℕ) :
    (bodyPackets ibs job).flatMap (Packet.words type fenceAddr) =
      Engine.bodyPackets type ibs job := by
  cases job with
  | none => exact List.flatMap_map _ _ ibs
  | some job =>
    unfold bodyPackets Engine.bodyPackets Engine.ufPacket
    rw [List.flatMap_append]
    congr 1
    · exact List.flatMap_map _ _ ibs
    · split
      · rfl
      · exact List.flatMap_singleton _ _

/-- What is committed of a job is what its engine writes before the padding. -/
theorem ibSchedule_words {ibs : List Ib}
    (h : s.ibSchedule env ring ibs (some job) = (.ok (), s')) {e : Engine}
    (he : e.syncSeq = s.syncSeq ring) :
    ∃ packets, s'.log = s.log ++ packets ∧
      packets.flatMap (Packet.words e.ring.type e.fenceAddr) =
        e.submissionWords (s.ringEnv env job) ibs (some job) := by
  unfold ibSchedule at h
  split at h
  · cases h
  split at h
  · cases h
  split at h
  · cases h
  split at h
  · cases h
  split at h
  · cases h
  · next packets s₁ hf =>
    split at h
    · cases h
    · next seq s₂ hfence =>
      cases h
      obtain ⟨hwords, hseq⟩ := vmFlush_words hf he
      obtain ⟨hnext, -⟩ := fenceEmit_ok hfence
      have hlog : s₂.log = s.log := by
        have hsame := fenceEmit_sameBut s₁ ring env.fence
        rw [hfence] at hsame
        change SameBut s₁ s₂ at hsame
        obtain ⟨id', heq, -⟩ := (vmFlush_ok hf).same
        rw [hsame, heq]
      refine ⟨packets ++ bodyPackets ibs (some job) ++ [.fence ring seq], by rw [hlog], ?_⟩
      rw [List.flatMap_append, List.flatMap_append, hwords, bodyPackets_words,
        List.flatMap_singleton, Engine.submissionWords, ← hseq, hnext]
      rfl

end Machine

end Gsgpu.Submit
