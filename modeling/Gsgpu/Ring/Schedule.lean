import Gsgpu.Ring.Buffer
import Gsgpu.Lib.Run
import Mathlib.Tactic.ByContra
import Mathlib.Tactic.Set

/-! `gsgpu_ib_schedule`: what a submission writes between its reservation and its commit, on
either ring. The packets come from three files; the reservation is a constant per ring and per
IB. -/
namespace Gsgpu.CommandRing

open Cs (RingType Ib gspkt)

/-- A ring with its fence driver's sequence number and address. -/
structure Engine where
  ring : Ring
  ready : Bool
  syncSeq : ℕ
  fenceAddr : ℕ

/-- What `gsgpu_ib_schedule` reads of `struct gsgpu_job`. -/
structure Job where
  /-- Whether `job->vm` is set. -/
  vm : Bool
  vmid : ℕ
  vmNeedsFlush : Bool
  vmPdAddr : ℕ
  pasid : ℕ
  ufAddr : ℕ
  ufSequence : ℕ

/-- How a call of `gsgpu_fence_emit` ends: without memory for the fence, or waiting for the fence
whose slot it takes. -/
inductive FenceOutcome
  | done
  | noMemory
  | waitFailed (r : Errno)

/-- What a submission finds around it. -/
structure Env where
  /-- `job->sched_sync` still has a fence. -/
  schedSync : Bool
  /-- `gsgpu_vmid_had_gpu_reset`. -/
  hadGpuReset : Bool
  /-- The VMID has no signaled mapping of the job's pasid. -/
  pasidStale : Bool
  flushFence : FenceOutcome
  fence : FenceOutcome

/-- `GSGPU_BO_INVALID_OFFSET`. -/
def boInvalidOffset : ℕ := 2 ^ 63 - 1

/-- `lower_32_bits`. -/
def lower32 (n : ℕ) : ℕ := n % 2 ^ 32

/-- `upper_32_bits`. -/
def upper32 (n : ℕ) : ℕ := n / 2 ^ 32 % 2 ^ 32

/-- `gfx_ring_emit_wreg` and `xdma_ring_emit_wreg`. -/
def emitWreg (reg val : ℕ) : List ℕ := [gspkt 0x81 2 ||| 0 <<< 8 ||| 1 <<< 15, reg, val]

/-- `gfx_ring_emit_fence_gfx` and `xdma_ring_emit_fence`, with the two flags they look at. -/
def emitFence (addr seq : ℕ) (write64bit intSel : Bool) : List ℕ :=
  [gspkt 0x83 (if write64bit then 4 else 3) ||| (if write64bit then 1 <<< 9 else 0) |||
      (if intSel then 1 <<< 8 else 0), lower32 addr, upper32 addr, lower32 seq] ++
    if write64bit then [upper32 seq] else []

/-- `mmu_emit_flush_gpu_tlb`, which both rings use as `emit_vm_flush`. -/
def emitVmFlush (vmid pdAddr : ℕ) : List ℕ :=
  let reg := 0x10020 + vmid * 8
  emitWreg reg (lower32 pdAddr) ++ emitWreg (reg + 4) (upper32 pdAddr) ++
    emitWreg 0x10018 (vmid <<< 8 ||| 0 ||| 1)

/-- `mmu_emit_pasid_mapping`. -/
def emitPasidMapping (type : RingType) (vmid pasid : ℕ) : List ℕ :=
  [gspkt 0x8A 3, match type with | .gfx => 0 | .xdma => 1, vmid, pasid]

namespace Engine

def emit (e : Engine) (words : List ℕ) : Engine := { e with ring := e.ring.emit words }

/-- `gsgpu_fence_emit`: the packet is written before the wait for the slot. -/
def fenceEmit (e : Engine) : FenceOutcome → Except Errno Unit × Engine
  | .noMemory => (.error .enomem, e)
  | outcome =>
    let seq := (e.syncSeq + 1) % 2 ^ 32
    let e := { e with syncSeq := seq }.emit (emitFence e.fenceAddr seq false true)
    match outcome with
    | .waitFailed r => (.error r, e)
    | _ => (.ok (), e)

/-- `vm_flush_needed` of `gsgpu_vm_flush`. -/
def flushNeeded (env : Env) (job : Job) : Bool :=
  (job.vmNeedsFlush || env.hadGpuReset) && job.vmPdAddr != boInvalidOffset

/-- `gsgpu_vm_flush`. -/
def vmFlush (env : Env) (e : Engine) (job : Job) (needPipeSync : Bool) :
    Except Errno Unit × Engine :=
  let vmFlushNeeded := flushNeeded env job
  let pasidMappingNeeded := env.hadGpuReset || env.pasidStale
  if !vmFlushNeeded && !needPipeSync then (.ok (), e)
  else
    let e := if pasidMappingNeeded then
      e.emit (emitPasidMapping e.ring.type job.vmid job.pasid) else e
    let e := if vmFlushNeeded || pasidMappingNeeded then
      e.emit (emitVmFlush job.vmid job.vmPdAddr) else e
    if vmFlushNeeded then e.fenceEmit env.flushFence else (.ok (), e)

/-- `gsgpu_vm_need_pipeline_sync`. -/
def vmNeedPipelineSync (env : Env) (job : Job) : Bool :=
  if job.vmid = 0 then false else env.hadGpuReset || job.vmNeedsFlush

/-- The part of `gsgpu_ib_schedule` after the flush: the IBs, the user fence and the fence. -/
def emitIbs (env : Env) (e : Engine) (ibs : List Ib) (job : Option Job) :
    Except Errno Unit × Engine :=
  let vmid := match job with | some job => job.vmid | none => 0
  let e := ibs.foldl (fun e ib => e.emit (Cs.ringEmitIb e.ring.type ib vmid)) e
  let e := match job with
    | some job => if job.ufAddr = 0 then e else e.emit (emitFence job.ufAddr job.ufSequence true false)
    | none => e
  e.fenceEmit env.fence

/-- What `gsgpu_ib_schedule` asks `gsgpu_ring_alloc` for, in 32 bits. -/
def allocSize (e : Engine) (ibs : List Ib) : ℕ :=
  ((ringFuncs e.ring.type).emitFrameSize + ibs.length * (ringFuncs e.ring.type).emitIbSize) % 2 ^ 32

/-- The part of `gsgpu_ib_schedule` that flushes the VM of a job. -/
def flush (env : Env) (e : Engine) : Option Job → Except Errno Unit × Engine
  | some job => e.vmFlush env job (env.schedSync || vmNeedPipelineSync env job)
  | none => (.ok (), e)

/-- What `gsgpu_ib_schedule` writes between the reservation and the commit. -/
def emitFrame (env : Env) (e : Engine) (ibs : List Ib) (job : Option Job) :
    Except Errno Unit × Engine :=
  match e.flush env job with
  | (.error r, e) => (.error r, e)
  | (.ok (), e) => e.emitIbs env ibs job

/-- `gsgpu_ib_schedule`. `emit_cntxcntl` and `insert_end` are set for neither ring. -/
def ibSchedule (env : Env) (e : Engine) (ibs : List Ib) (job : Option Job) :
    Except Errno Unit × Engine :=
  if ibs.length = 0 then (.error .einval, e)
  else if !e.ready then (.error .einval, e)
  else if job.any (fun job => job.vm && job.vmid = 0) then (.error .einval, e)
  else match e.ring.alloc (e.allocSize ibs) with
  | .error r => (.error r, e)
  | .ok ring =>
    match { e with ring := ring }.emitFrame env ibs job with
    | (.error r, e) => (.error r, { e with ring := e.ring.undo })
    | (.ok (), e) => (.ok (), { e with ring := e.ring.commit })

/-- The engine after some packets and fences. -/
def emitted (e : Engine) (seq : ℕ) (words : List ℕ) : Engine :=
  { e with syncSeq := seq, ring := e.ring.emit words }

theorem emitted_emitted (e : Engine) (seq₁ seq₂ : ℕ) (xs ys : List ℕ) :
    (e.emitted seq₁ xs).emitted seq₂ ys = e.emitted seq₂ (xs ++ ys) := by
  simp [emitted, Ring.emit_append]

theorem emit_nil (e : Engine) : e.emit [] = e := rfl

theorem emit_emit (e : Engine) (xs ys : List ℕ) : (e.emit xs).emit ys = e.emit (xs ++ ys) := by
  simp [emit, Ring.emit_append]

/-- The sequence number a fence gets. -/
def nextSeq (e : Engine) : ℕ := (e.syncSeq + 1) % 2 ^ 32

/-- The packet of a fence. -/
def fenceWords (e : Engine) : List ℕ := emitFence e.fenceAddr e.nextSeq false true

theorem fenceEmit_ok {e e' : Engine} {o : FenceOutcome} (h : e.fenceEmit o = (.ok (), e')) :
    e' = e.emitted e.nextSeq e.fenceWords := by
  cases o with
  | done => exact (Prod.mk.inj h).2.symm
  | noMemory => simp [fenceEmit] at h
  | waitFailed r => simp [fenceEmit] at h

theorem fenceEmit_emitted (e : Engine) (o : FenceOutcome) :
    ∃ seq words, (e.fenceEmit o).2 = e.emitted seq words ∧ words.length ≤ 4 := by
  cases o with
  | done => exact ⟨_, e.fenceWords, rfl, by simp [fenceWords, emitFence]⟩
  | noMemory => exact ⟨e.syncSeq, [], rfl, by simp⟩
  | waitFailed r => exact ⟨_, e.fenceWords, rfl, by simp [fenceWords, emitFence]⟩

/-- The packets of `gsgpu_vm_flush` before its fence. -/
def flushPackets (env : Env) (type : RingType) (job : Job) (needPipeSync : Bool) : List ℕ :=
  if !flushNeeded env job && !needPipeSync then []
  else
    (if env.hadGpuReset || env.pasidStale then emitPasidMapping type job.vmid job.pasid else []) ++
    if flushNeeded env job || (env.hadGpuReset || env.pasidStale) then
      emitVmFlush job.vmid job.vmPdAddr else []

theorem flushPackets_length (env : Env) (type : RingType) (job : Job) (needPipeSync : Bool) :
    (flushPackets env type job needPipeSync).length ≤ 13 := by
  simp only [flushPackets]
  split_ifs <;> simp [emitPasidMapping, emitVmFlush, emitWreg]

theorem vmFlush_eq (env : Env) (e : Engine) (job : Job) (needPipeSync : Bool) :
    e.vmFlush env job needPipeSync =
      if flushNeeded env job then
        (e.emit (flushPackets env e.ring.type job needPipeSync)).fenceEmit env.flushFence
      else (.ok (), e.emit (flushPackets env e.ring.type job needPipeSync)) := by
  simp only [vmFlush, flushPackets]
  cases flushNeeded env job <;> cases needPipeSync <;>
    cases env.hadGpuReset || env.pasidStale <;>
    simp [emit_nil, emit_emit]

/-- The packets of the IBs of a submission. -/
def ibPackets (type : RingType) (ibs : List Ib) (vmid : ℕ) : List ℕ :=
  ibs.flatMap fun ib => Cs.ringEmitIb type ib vmid

theorem ibPackets_length (type : RingType) (ibs : List Ib) (vmid : ℕ) :
    (ibPackets type ibs vmid).length = ibs.length * 4 := by
  induction ibs with
  | nil => rfl
  | cons ib ibs ih =>
    have hib : (Cs.ringEmitIb type ib vmid).length = 4 := by cases type <;> rfl
    rw [ibPackets, List.flatMap_cons, List.length_append, ← ibPackets, ih, hib, List.length_cons]
    omega

/-- The packet of a job's user fence. -/
def ufPacket (job : Job) : List ℕ :=
  if job.ufAddr = 0 then [] else emitFence job.ufAddr job.ufSequence true false

theorem ufPacket_length (job : Job) : (ufPacket job).length ≤ 5 := by
  rw [ufPacket]
  split <;> simp [emitFence]

private theorem foldl_emit (e : Engine) (ibs : List Ib) (vmid : ℕ) :
    ibs.foldl (fun e ib => e.emit (Cs.ringEmitIb e.ring.type ib vmid)) e =
      e.emit (ibPackets e.ring.type ibs vmid) := by
  induction ibs generalizing e with
  | nil => rfl
  | cons ib ibs ih =>
    have htype : (e.emit (Cs.ringEmitIb e.ring.type ib vmid)).ring.type = e.ring.type := by
      simp [emit]
    rw [List.foldl_cons, ih, emit_emit, htype, ibPackets, ibPackets, List.flatMap_cons]

/-- What is emitted between the flush and the last fence. -/
def bodyPackets (type : RingType) (ibs : List Ib) : Option Job → List ℕ
  | some job => ibPackets type ibs job.vmid ++ ufPacket job
  | none => ibPackets type ibs 0

theorem bodyPackets_length (type : RingType) (ibs : List Ib) (job : Option Job) :
    (bodyPackets type ibs job).length ≤ ibs.length * 4 + 5 := by
  cases job with
  | none => simp [bodyPackets, ibPackets_length]
  | some job =>
    have := ufPacket_length job
    simp only [bodyPackets, List.length_append, ibPackets_length]
    omega

theorem emitIbs_eq (env : Env) (e : Engine) (ibs : List Ib) (job : Option Job) :
    e.emitIbs env ibs job = (e.emit (bodyPackets e.ring.type ibs job)).fenceEmit env.fence := by
  cases job with
  | none => simp only [emitIbs, foldl_emit, bodyPackets]
  | some job =>
    simp only [emitIbs, foldl_emit, bodyPackets, ufPacket]
    split
    · rw [List.append_nil]
    · rw [emit_emit]

/-- The packets of a successful flush, and the sequence number after it. -/
def flushWords (env : Env) (e : Engine) : Option Job → ℕ × List ℕ
  | some job =>
    let packets :=
      flushPackets env e.ring.type job (env.schedSync || vmNeedPipelineSync env job)
    if flushNeeded env job then (e.nextSeq, packets ++ e.fenceWords) else (e.syncSeq, packets)
  | none => (e.syncSeq, [])

theorem flush_ok {env : Env} {e e' : Engine} {job : Option Job}
    (h : e.flush env job = (.ok (), e')) :
    e' = e.emitted (e.flushWords env job).1 (e.flushWords env job).2 := by
  cases job with
  | none => exact (Prod.mk.inj h).2.symm
  | some job =>
    rw [flush, vmFlush_eq] at h
    by_cases hn : flushNeeded env job = true
    · rw [if_pos hn] at h
      simp only [flushWords, if_pos hn]
      rw [fenceEmit_ok h]
      simp [emitted, emit, nextSeq, fenceWords, Ring.emit_append]
    · rw [if_neg hn] at h
      simp only [flushWords, if_neg hn]
      exact (Prod.mk.inj h).2.symm

theorem flush_emitted (env : Env) (e : Engine) (job : Option Job) :
    ∃ seq words, (e.flush env job).2 = e.emitted seq words ∧ words.length ≤ 17 := by
  cases job with
  | none => exact ⟨e.syncSeq, [], rfl, by simp⟩
  | some job =>
    rw [flush, vmFlush_eq]
    have hlen := flushPackets_length env e.ring.type job
      (env.schedSync || vmNeedPipelineSync env job)
    split
    · obtain ⟨seq, words, heq, hwords⟩ := fenceEmit_emitted
        (e.emit (flushPackets env e.ring.type job (env.schedSync || vmNeedPipelineSync env job)))
        env.flushFence
      refine ⟨seq, _, by rw [heq]; exact emitted_emitted e e.syncSeq seq _ words, ?_⟩
      rw [List.length_append]
      omega
    · exact ⟨e.syncSeq, _, rfl, by omega⟩

/-- A complete submission, before its padding. -/
def submissionWords (env : Env) (e : Engine) (ibs : List Ib) (job : Option Job) : List ℕ :=
  (e.flushWords env job).2 ++ bodyPackets e.ring.type ibs job ++
    emitFence e.fenceAddr (((e.flushWords env job).1 + 1) % 2 ^ 32) false true

theorem emitFrame_emitted (env : Env) (e : Engine) (ibs : List Ib) (job : Option Job) :
    ∃ seq words, (e.emitFrame env ibs job).2 = e.emitted seq words ∧
      words.length ≤ ibs.length * 4 + 26 := by
  obtain ⟨seq₁, words₁, hemit₁, hlen₁⟩ := flush_emitted env e job
  rw [emitFrame]
  rcases hf : e.flush env job with ⟨r | ⟨⟩, e₁⟩
  · rw [hf] at hemit₁
    exact ⟨seq₁, words₁, hemit₁, by omega⟩
  · rw [hf] at hemit₁
    obtain rfl : e₁ = e.emitted seq₁ words₁ := hemit₁
    have hbody := bodyPackets_length (e.emitted seq₁ words₁).ring.type ibs job
    obtain ⟨seq₂, words₂, hemit₂, hlen₂⟩ := fenceEmit_emitted
      ((e.emitted seq₁ words₁).emit (bodyPackets (e.emitted seq₁ words₁).ring.type ibs job))
      env.fence
    refine ⟨seq₂, words₁ ++ (bodyPackets (e.emitted seq₁ words₁).ring.type ibs job ++ words₂),
      ?_, ?_⟩
    · simp only [emitIbs_eq, hemit₂]
      simp [emitted, emit, Ring.emit_append]
    · simp only [List.length_append]
      omega

theorem emitFrame_ok {env : Env} {e e' : Engine} {ibs : List Ib} {job : Option Job}
    (h : e.emitFrame env ibs job = (.ok (), e')) :
    ∃ seq, e' = e.emitted seq (e.submissionWords env ibs job) := by
  rw [emitFrame] at h
  rcases hf : e.flush env job with ⟨r | ⟨⟩, e₁⟩
  · rw [hf] at h
    cases h
  · rw [hf] at h
    simp only [emitIbs_eq] at h
    obtain rfl := flush_ok hf
    refine ⟨((e.flushWords env job).1 + 1) % 2 ^ 32, (fenceEmit_ok h).trans ?_⟩
    simp [emitted, emit, submissionWords, fenceWords, nextSeq, Ring.emit_append]

/-- How a call ends: it is refused, it fails after some packets and is undone, or its submission
is complete and committed. -/
theorem ibSchedule_cases (env : Env) (e : Engine) (ibs : List Ib) (job : Option Job) :
    (∃ r, e.ibSchedule env ibs job = (.error r, e)) ∨
    ∃ ring, e.ring.alloc (e.allocSize ibs) = .ok ring ∧
      ∃ seq words, words.length ≤ ibs.length * 4 + 26 ∧
        ((∃ r, e.ibSchedule env ibs job =
          (.error r, { e with syncSeq := seq, ring := (ring.emit words).undo })) ∨
        words = { e with ring := ring }.submissionWords env ibs job ∧
          e.ibSchedule env ibs job =
            (.ok (), { e with syncSeq := seq, ring := (ring.emit words).commit })) := by
  unfold ibSchedule
  split
  · exact .inl ⟨_, rfl⟩
  split
  · exact .inl ⟨_, rfl⟩
  split
  · exact .inl ⟨_, rfl⟩
  cases hring : e.ring.alloc (e.allocSize ibs) with
  | error r => exact .inl ⟨r, rfl⟩
  | ok ring =>
    refine .inr ⟨ring, rfl, ?_⟩
    obtain ⟨seq, words, hemit, hlen⟩ := emitFrame_emitted env { e with ring := ring } ibs job
    rcases hf : { e with ring := ring }.emitFrame env ibs job with ⟨r | ⟨⟩, e'⟩
    · rw [hf] at hemit
      obtain rfl : e' = _ := hemit
      exact ⟨seq, words, hlen, .inl ⟨r, by simp only [hf, emitted]⟩⟩
    · obtain ⟨seq', rfl⟩ := emitFrame_ok hf
      rw [hf] at hemit
      -- the same engine after as many words
      have hcount := congrArg (·.ring.countDw) hemit
      simp only [emitted, Ring.emit_countDw] at hcount
      exact ⟨seq', _, by omega, .inr ⟨rfl, by simp only [hf, emitted]⟩⟩

/-- The reservation of a call, computed in 32 bits, does not wrap. -/
def NoWrap (type : RingType) (ibs : List Ib) : Prop :=
  (ringFuncs type).emitFrameSize + ibs.length * 4 + 15 < 2 ^ 32

instance (type : RingType) (ibs : List Ib) : Decidable (NoWrap type ibs) :=
  inferInstanceAs (Decidable (_ < _))

/-- What the ring of an engine has whenever a submission starts. -/
structure Inv (type : RingType) (k : ℕ) (e : Engine) : Prop where
  type : e.ring.type = type
  sized : e.ring.Sized k
  large : 8 ≤ k
  maxDw : e.ring.maxDw = 256
  wptr : e.ring.wptr < 2 ^ k
  aligned : 16 ∣ e.ring.wptr
  overrun : e.ring.overrun = false
  countDw : 0 ≤ e.ring.countDw

variable {type : RingType} {k : ℕ} {e : Engine} {ibs : List Ib}

/-- A granted reservation has room for the packets of the frame and the IBs. -/
theorem Inv.alloc (h : e.Inv type k) (hibs : NoWrap type ibs) {ring : Ring}
    (hring : e.ring.alloc (e.allocSize ibs) = .ok ring) :
    ∃ n : ℕ, ring = { e.ring with countDw := (n : ℤ), wptrOld := e.ring.wptr } ∧ 16 ∣ n ∧
      n = Ring.reserved (e.allocSize ibs) ∧ ibs.length * 4 + 26 ≤ n ∧ n ≤ 2 ^ k := by
  have hk : 2 ^ 8 ≤ 2 ^ k := Nat.pow_le_pow_right (by omega) h.large
  have hib : (ringFuncs type).emitIbSize = 4 := by cases type <;> rfl
  have hframe : 39 ≤ (ringFuncs type).emitFrameSize := by cases type <;> decide
  have hsize : e.allocSize ibs = (ringFuncs type).emitFrameSize + ibs.length * 4 := by
    rw [NoWrap] at hibs
    rw [allocSize, h.type, hib, Nat.mod_eq_of_lt (by omega)]
  have hres : ibs.length * 4 + 26 ≤ Ring.reserved (e.allocSize ibs) := by
    rw [NoWrap] at hibs
    rw [hsize, Ring.reserved]
    omega
  have hmax := h.maxDw
  rw [Ring.alloc_eq] at hring
  split at hring
  · cases hring
  · next hle =>
    have hdvd : 16 ∣ Ring.reserved (e.allocSize ibs) := Nat.dvd_mul_left 16 _
    have hint : toInt (Ring.reserved (e.allocSize ibs)) = Ring.reserved (e.allocSize ibs) :=
      if_pos (by omega)
    rw [hint] at hring
    cases hring
    exact ⟨Ring.reserved (e.allocSize ibs), rfl, hdvd, rfl, hres, by omega⟩

end Engine

/-- The dwords of the ring from a position on. -/
def readBack (ring : Ring) (start n : ℕ) : List ℕ :=
  (List.range n).map fun i => ring.ring ((start + i) &&& ring.bufMask)

/-- An engine, with what its ring had from the old to the new write pointer at each commit. -/
structure Stream where
  engine : Engine
  committed : List (List ℕ)

/-- One call of `gsgpu_ib_schedule`. -/
structure Call where
  env : Env
  ibs : List Ib
  job : Option Job

def Stream.step (s : Stream) (c : Call) : Stream :=
  match s.engine.ibSchedule c.env c.ibs c.job with
  | (.ok (), e) =>
    -- what was reserved less what is left of it
    let written := (Ring.reserved (s.engine.allocSize c.ibs) - e.ring.countDw).toNat
    ⟨e, s.committed ++ [readBack e.ring s.engine.ring.wptr written]⟩
  | (.error _, e) => ⟨e, s.committed⟩

/-- All packets of one call and the padding. -/
def Complete (type : RingType) (words : List ℕ) : Prop :=
  ∃ (c : Call) (e : Engine) (pad : ℕ), e.ring.type = type ∧ pad < 16 ∧ 16 ∣ words.length ∧
    words = e.submissionWords c.env c.ibs c.job ++ List.replicate pad (ringFuncs type).nop

/-- The states of an engine whose ring was just initialized, over all calls. -/
def Stream.Reachable (ring : Ring) (s : Stream) : Prop :=
  Transition.Reach (fun s => s.engine.ring = ring ∧ s.committed = [])
    (fun s c s' => s.step c = s') (fun s c => Engine.NoWrap s.engine.ring.type c.ibs) s

/-- What the ring holds as a queue is what is read back. -/
theorem readBack_eq {ring : Ring} {k start : ℕ} {words : List ℕ} (hs : ring.Sized k)
    (h : Circular.Holds (2 ^ k) ring.ring start words) :
    readBack ring start words.length = words := by
  apply List.ext_getElem?
  intro i
  rcases Nat.lt_or_ge i words.length with hi | hi
  · have hget := h i words[i] (List.getElem?_eq_getElem hi)
    rw [readBack, List.getElem?_map, List.getElem?_range hi, Option.map_some, hs.bufMask,
      Nat.and_two_pow_sub_one_eq_mod, hget, List.getElem?_eq_getElem hi]
  · rw [List.getElem?_eq_none hi, List.getElem?_eq_none (by simpa [readBack] using hi)]

section Runs

variable {type : RingType} {k : ℕ} {e : Engine}

open Engine

/-- A failed call leaves the ring at the write pointer it found. -/
theorem Engine.Inv.undo (h : e.Inv type k) {n seq : ℕ} {words : List ℕ} (hlen : words.length ≤ n) :
    Inv type k { e with
      syncSeq := seq
      ring := ({ e.ring with countDw := (n : ℤ), wptrOld := e.ring.wptr }.emit words).undo } := by
  set ring : Ring := { e.ring with countDw := (n : ℤ), wptrOld := e.ring.wptr }
  have hs : ring.Sized k := ⟨h.sized.bufMask, h.sized.ptrMask, h.sized.ringSize, h.sized.le⟩
  have hemit := hs.emit words
  refine ⟨?_, ⟨hemit.bufMask, hemit.ptrMask, hemit.ringSize, hemit.le⟩, h.large, ?_, ?_, ?_, ?_, ?_⟩
  all_goals simp only [Ring.undo, Ring.emit_type, Ring.emit_maxDw, Ring.emit_wptrOld,
    Ring.emit_countDw]
  · exact h.type
  · exact h.maxDw
  · exact h.wptr
  · exact h.aligned
  · rw [Ring.emit_overrun_of_le (by simpa [ring] using hlen)]
    exact h.overrun
  · simp only [ring]
    omega

/-- A committed submission ends on a multiple of 16, within its reservation, and is what the ring
has from the old write pointer on. -/
theorem Engine.Inv.commit (h : e.Inv type k) {n seq : ℕ} {words : List ℕ}
    (hdvd : 16 ∣ n) (hn : n ≤ 2 ^ k) (hlen : words.length ≤ n) {ring : Ring}
    (hring : ring = { e.ring with countDw := (n : ℤ), wptrOld := e.ring.wptr }.emit words) :
    Inv type k { e with syncSeq := seq, ring := ring.commit } ∧
      16 ∣ (words ++ ring.nops).length ∧
      readBack ring.commit e.ring.wptr (n - ring.commit.countDw).toNat = words ++ ring.nops := by
  set ring₀ : Ring := { e.ring with countDw := (n : ℤ), wptrOld := e.ring.wptr }
  have hs₀ : ring₀.Sized k := ⟨h.sized.bufMask, h.sized.ptrMask, h.sized.ringSize, h.sized.le⟩
  have hs : ring.Sized k := hring ▸ hs₀.emit words
  have hwptr : ring.wptr = (e.ring.wptr + words.length) % 2 ^ k := by
    rw [hring]
    exact hs₀.emit_wptr h.wptr words
  have hk16 : 16 ∣ 2 ^ k := Nat.pow_dvd_pow 2 (show 4 ≤ k by have := h.large; omega)
  obtain ⟨hpad, hend⟩ := Ring.padding_le hwptr h.aligned (.inl hk16) hdvd hlen
  have hnops : ring.nops.length = ring.padding := List.length_replicate
  have hcommit : ring.commit = ring₀.emit (words ++ ring.nops) := by
    rw [Ring.commit_eq, Ring.emit_append, ← hring]
  have htotal : (words ++ ring.nops).length ≤ n := by
    rw [List.length_append, hnops]
    exact hpad
  have hwptr' : ring.commit.wptr = (e.ring.wptr + (words ++ ring.nops).length) % 2 ^ k := by
    rw [hcommit]
    exact hs₀.emit_wptr h.wptr _
  have hcount : ring.commit.countDw = (n : ℤ) - (words ++ ring.nops).length := by
    rw [hcommit, Ring.emit_countDw]
  have hsum : 16 ∣ e.ring.wptr + (words ++ ring.nops).length := by
    rw [List.length_append, hnops, ← Nat.add_assoc]
    exact hend
  refine ⟨⟨?_, ?_, h.large, ?_, ?_, ?_, ?_, ?_⟩, ?_, ?_⟩
  · rw [hcommit, Ring.emit_type]
    exact h.type
  · exact hs.emit _
  · rw [hcommit, Ring.emit_maxDw]
    exact h.maxDw
  · rw [hwptr']
    exact Nat.mod_lt _ (Nat.two_pow_pos k)
  · rw [hwptr']
    exact (Nat.dvd_mod_iff hk16).mpr hsum
  · rw [hcommit, Ring.emit_overrun_of_le (Int.ofNat_le.mpr htotal)]
    exact h.overrun
  · rw [hcount]
    omega
  · exact (Nat.dvd_add_right h.aligned).mp hsum
  · have hwritten : (n - ring.commit.countDw).toNat = (words ++ ring.nops).length := by omega
    have hempty : Circular.Holds (2 ^ k) ring₀.ring e.ring.wptr [] := .empty
    have hholds := hs₀.emit_holds (Nat.mod_eq_of_lt h.wptr).symm hempty (words ++ ring.nops)
      (by rw [List.length_nil]; omega)
    rw [← hcommit, List.nil_append] at hholds
    have hsc : ring.commit.Sized k := hs.emit _
    rw [hwritten, readBack_eq hsc hholds]

/-- One call: the accounting holds, a failure gives everything back, and a success commits a
complete submission. -/
theorem Engine.Inv.ibSchedule (h : e.Inv type k) (c : Call) (hibs : NoWrap type c.ibs) :
    (e.ibSchedule c.env c.ibs c.job).2.Inv type k ∧
    (∀ r, (e.ibSchedule c.env c.ibs c.job).1 = .error r →
      (e.ibSchedule c.env c.ibs c.job).2.ring.wptr = e.ring.wptr) ∧
    ((e.ibSchedule c.env c.ibs c.job).1 = .ok () → Complete type
      (readBack (e.ibSchedule c.env c.ibs c.job).2.ring e.ring.wptr
        (Ring.reserved (e.allocSize c.ibs) -
          (e.ibSchedule c.env c.ibs c.job).2.ring.countDw).toNat)) := by
  rcases ibSchedule_cases c.env e c.ibs c.job with ⟨r, hr⟩ | ⟨ring, halloc, seq, words, hlen, hcase⟩
  · rw [hr]
    exact ⟨h, fun _ _ => rfl, fun hok => nomatch hok⟩
  obtain ⟨n, hring, hdvd, hn, hle, hk⟩ := h.alloc hibs halloc
  rcases hcase with ⟨r, hr⟩ | ⟨hwords, hr⟩
  · rw [hr, hring]
    refine ⟨h.undo (by omega), fun _ _ => ?_, fun hok => nomatch hok⟩
    simp [Ring.undo]
  · obtain ⟨hinv, hdvd', hread⟩ := h.commit hdvd hk (by omega) (congrArg (Ring.emit · words) hring)
    rw [hr, ← hn]
    refine ⟨hinv, fun _ herr => (nomatch herr), fun _ => ?_⟩
    rw [hread]
    have htype : (ring.emit words).type = type := by
      rw [Ring.emit_type, hring]
      exact h.type
    refine ⟨c, { e with ring := ring }, (ring.emit words).padding, by rw [hring]; exact h.type,
      ?_, hdvd', ?_⟩
    · rw [Ring.padding_eq]
      exact Nat.mod_lt _ (by omega)
    · rw [Ring.nops, htype, hwords]

/-- What a stream of calls has. -/
structure Stream.Inv (type : RingType) (k : ℕ) (s : Stream) : Prop where
  engine : s.engine.Inv type k
  committed : ∀ words ∈ s.committed, Complete type words

variable {s : Stream}

theorem Stream.step_engine (s : Stream) (c : Call) :
    (s.step c).engine = (s.engine.ibSchedule c.env c.ibs c.job).2 := by
  unfold Stream.step
  rcases s.engine.ibSchedule c.env c.ibs c.job with ⟨_ | ⟨⟩, e⟩ <;> rfl

theorem Stream.Inv.step (h : s.Inv type k) (c : Call) (hibs : NoWrap type c.ibs) :
    (s.step c).Inv type k := by
  obtain ⟨hinv, -, hok⟩ := h.engine.ibSchedule c hibs
  refine ⟨by rwa [Stream.step_engine], ?_⟩
  unfold Stream.step
  rcases hres : s.engine.ibSchedule c.env c.ibs c.job with ⟨r | ⟨⟩, e⟩
  · exact h.committed
  · rw [hres] at hok
    intro words hwords
    rcases List.mem_append.mp hwords with hmem | hmem
    · exact h.committed words hmem
    · rw [List.mem_singleton.mp hmem]
      exact hok rfl

theorem Stream.Reachable.inv {submissions : ℕ} {ring : Ring}
    (hinit : ringInit type 256 submissions = some ring) (h : s.Reachable ring) :
    ∃ k, s.Inv type k := by
  obtain ⟨k, hs, htype, hmax, hw, hover, hcount, hne, hclog⟩ := ringInit_eq_some hinit
  have hlarge : 8 ≤ k := by
    by_contra hlt
    have hle : 256 * 4 * submissions % 2 ^ 32 ≤ 2 ^ (k + 2) := hclog ▸ Nat.le_pow_clog (by omega) _
    have : 2 ^ (k + 2) ≤ 2 ^ 9 := Nat.pow_le_pow_right (by omega) (by omega)
    omega
  refine ⟨k, Transition.Reach.invariant ?_ ?_ h⟩
  · rintro s ⟨rfl, hnil⟩
    refine ⟨⟨htype, hs, hlarge, hmax, hw ▸ Nat.two_pow_pos k, hw ▸ Nat.dvd_zero 16, hover,
      hcount.ge⟩, ?_⟩
    simp [hnil]
  · rintro s c s' hinv hibs rfl
    exact hinv.step c (hinv.engine.type ▸ hibs)

end Runs

/-- On either ring of the driver, as long as the 32-bit reservation does not wrap: every call
starts on a multiple of the fetch size and stays within its reservation, padding included, a
failing call leaves the write pointer where it was, and all that is committed are complete
submissions. -/
theorem ibSchedule_within_reservation (type : RingType) (submissions : ℕ) {ring : Ring}
    (hinit : ringInit type 256 submissions = some ring) {s : Stream} (h : s.Reachable ring) :
    (ringFuncs type).alignMask + 1 ∣ s.engine.ring.wptr ∧
    (∀ words ∈ s.committed, Complete type words) ∧
    ∀ c : Call, Engine.NoWrap type c.ibs →
      0 ≤ (s.step c).engine.ring.countDw ∧ (s.step c).engine.ring.overrun = false ∧
      ∀ r, (s.engine.ibSchedule c.env c.ibs c.job).1 = .error r →
        (s.step c).engine.ring.wptr = s.engine.ring.wptr ∧
        (s.step c).committed = s.committed := by
  obtain ⟨k, hinv⟩ := h.inv hinit
  have halign : (ringFuncs type).alignMask + 1 = 16 := by cases type <;> rfl
  refine ⟨halign ▸ hinv.engine.aligned, hinv.committed, fun c hibs => ?_⟩
  have hstep := (hinv.step c hibs).engine
  refine ⟨hstep.countDw, hstep.overrun, fun r hr => ⟨?_, ?_⟩⟩
  · rw [Stream.step_engine]
    exact (hinv.engine.ibSchedule c hibs).2.1 r hr
  · unfold Stream.step
    rcases hres : s.engine.ibSchedule c.env c.ibs c.job with ⟨r' | ⟨⟩, e⟩
    · rfl
    · rw [hres] at hr
      cases hr

/-- A call where nothing fails: a VM flush with its pasid mapping, and a user fence. -/
def fullCall (numIbs : ℕ) : Call where
  env := ⟨false, false, true, .done, .done⟩
  ibs := List.replicate numIbs ⟨0x10000, 64, 0⟩
  job := some ⟨true, 1, true, 0x4000, 7, 0x8000, 1⟩

private theorem exists_ringInit (type : RingType) : ∃ ring, ringInit type 256 2 = some ring := by
  have hclog : Nat.clog 2 2048 = 11 := by decide
  simp [ringInit, roundupPowOfTwo, hclog]

theorem ibSchedule_within_reservation_full : ∃ ring, ringInit .xdma 256 2 = some ring ∧
    (Stream.step ⟨⟨ring, true, 0, 0⟩, []⟩ (fullCall 54)).engine.ring.overrun = false := by
  obtain ⟨ring, hring⟩ := exists_ringInit .xdma
  have h : Stream.Reachable ring ⟨⟨ring, true, 0, 0⟩, []⟩ := .start ⟨rfl, rfl⟩
  exact ⟨ring, hring, ((ibSchedule_within_reservation .xdma 2 hring h).2.2 (fullCall 54)
    (by decide)).2.1⟩

/-- With `2 ^ 30` IBs the reservation wraps to that of the frame alone: it is granted, and
overrun. -/
theorem ibSchedule_overruns_wrapped_reservation : ∃ ring, ringInit .gfx 256 2 = some ring ∧
    ∃ c : Call, c.ibs.length = 2 ^ 30 ∧
      (Stream.step ⟨⟨ring, true, 0, 0⟩, []⟩ c).engine.ring.overrun = true := by
  obtain ⟨ring, hring⟩ := exists_ringInit .gfx
  obtain ⟨k, -, htype, hmax, -⟩ := ringInit_eq_some hring
  obtain ⟨ibs, hlen⟩ : ∃ ibs : List Ib, ibs.length = 2 ^ 30 :=
    ⟨List.replicate _ ⟨0x10000, 64, 0⟩, List.length_replicate⟩
  have hsize : Engine.allocSize ⟨ring, true, 0, 0⟩ ibs = 50 := by
    simp only [Engine.allocSize, htype, hlen]
    rfl
  have halloc : ring.alloc 50 = .ok { ring with countDw := 64, wptrOld := ring.wptr } := by
    rw [Ring.alloc_eq, hmax]
    rfl
  refine ⟨ring, hring, ⟨⟨false, false, false, .done, .done⟩, ibs, none⟩, hlen, ?_⟩
  have hempty : ibs.length ≠ 0 := by
    rw [hlen]
    decide
  have hbody : decide (Engine.bodyPackets ring.type ibs none ≠ [] ∧
      (64 : ℤ) < (Engine.bodyPackets ring.type ibs none).length) = true := by
    have hpackets : (Engine.bodyPackets ring.type ibs none).length = 2 ^ 32 := by
      rw [Engine.bodyPackets, Engine.ibPackets_length, hlen]
      rfl
    rw [decide_eq_true_eq, hpackets]
    refine ⟨fun hnil => ?_, by decide⟩
    rw [hnil] at hpackets
    exact absurd hpackets (by decide)
  rw [Stream.step_engine]
  simp only [Engine.ibSchedule, if_neg hempty, hsize, halloc, Engine.emitFrame, Engine.flush,
    Engine.emitIbs_eq, Engine.fenceEmit, Option.any_none, Bool.not_true, Bool.false_eq_true,
    if_false, Engine.emit, Ring.commit_eq, Ring.emit_overrun]
  rw [hbody, Bool.or_true, Bool.true_or, Bool.true_or]

end Gsgpu.CommandRing
