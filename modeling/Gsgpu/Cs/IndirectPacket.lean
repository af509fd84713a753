import Gsgpu.Cs.Total
import Gsgpu.Ids.Pool
import Gsgpu.Lib.Bits

/-! The indirect buffer packets of an accepted submission: the two ring encoders pack the length
of an IB and the VMID of its job into one word. -/
namespace Gsgpu.Cs

open Prog

/-- `GSPKT(op, n)`. -/
def gspkt (op n : ℕ) : ℕ := (op &&& 0xFF) ||| (n &&& 0xFFFF) <<< 16

/-- `GSPKT_INDIRECT`. -/
def gspktIndirect : ℕ := 0x82

/-- `xdma_ring_emit_ib`. -/
def xdmaRingEmitIb (ib : Ib) (vmid : ℕ) : List ℕ :=
  [gspkt gspktIndirect 3, ib.gpuAddr % 2 ^ 32, ib.gpuAddr / 2 ^ 32 % 2 ^ 32,
    (ib.lengthDw ||| vmid <<< 24) % 2 ^ 32]

/-- `gfx_ring_emit_ib_gfx`. -/
def gfxRingEmitIbGfx (ib : Ib) (vmid : ℕ) : List ℕ :=
  let header := gspkt gspktIndirect 3
  let control := 0 ||| (ib.lengthDw ||| vmid <<< 24) % 2 ^ 32
  [header, ib.gpuAddr % 2 ^ 32, ib.gpuAddr / 2 ^ 32 % 2 ^ 32, control]

/-- `ring->funcs->emit_ib`. -/
def ringEmitIb : RingType → Ib → ℕ → List ℕ
  | .gfx => gfxRingEmitIbGfx
  | .xdma => xdmaRingEmitIb

/-- The part of `gsgpu_ib_schedule` that emits a job's IBs. -/
def ibScheduleEmit (type : RingType) (job : Job) (vmid : ℕ) : List (List ℕ) :=
  job.ibs.map fun ib => ringEmitIb type ib vmid

/-- Bits 31..24 of the control dword. -/
def packetVmid (packet : List ℕ) : ℕ := packet.getD 3 0 / 2 ^ 24 % 2 ^ 8

/-- Bits 23..0 of the control dword. -/
def packetLength (packet : List ℕ) : ℕ := packet.getD 3 0 % 2 ^ 24

/-- A VMID that a grab gives a job in some state the manager can be in. -/
def Granted (vmid : ℕ) : Prop :=
  ∃ (events : List Ids.Event) (m : Ids.VmidMgr) (env : Ids.Env) (vm : Ids.Vm) (ring : ℕ)
    (fence : Fence) (sync : Sync) (job : Ids.Job) (m' : Ids.VmidMgr) (sync' : Sync)
    (job' : Ids.Job), events.foldlM Ids.step Ids.vmidMgrInit = some m ∧
      Ids.vmidGrab env vm ring fence m sync job = (.ok (some vmid), m', sync', job')

/-- Every packet of the job decodes to the job's VMID and the IB's length, on either ring and
under every VMID the job may be granted. -/
def PacketsDecode (job : Job) : Prop :=
  ∀ type vmid, Granted vmid → (ibScheduleEmit type job vmid).map packetVmid =
      job.ibs.map (fun _ => vmid) ∧
    (ibScheduleEmit type job vmid).map packetLength = job.ibs.map (·.lengthDw)

theorem Granted.lt {vmid : ℕ} (h : Granted vmid) : vmid < 4 := by
  obtain ⟨events, m, env, vm, ring, fence, sync, job, m', sync', job', hrun, hgrab⟩ := h
  obtain ⟨m₁, hrun₁, hinv⟩ := Ids.poolInv_run Ids.poolInv_init events
  obtain rfl : m₁ = m := Option.some.inj (hrun₁.symm.trans hrun)
  exact (Ids.vmidGrab_bounds hinv hgrab).2

theorem emit_control (type : RingType) (ib : Ib) (vmid : ℕ) :
    (ringEmitIb type ib vmid).getD 3 0 = (ib.lengthDw ||| vmid <<< 24) % 2 ^ 32 := by
  cases type with
  | gfx => simp [ringEmitIb, gfxRingEmitIbGfx]
  | xdma => rfl

theorem packetLength_emit (type : RingType) (ib : Ib) (vmid : ℕ) :
    packetLength (ringEmitIb type ib vmid) = ib.lengthDw % 2 ^ 24 := by
  unfold packetLength
  rw [emit_control, Nat.mod_mod_of_dvd _ (by decide), Bits.or_shiftLeft_mod]

theorem packetVmid_emit (type : RingType) (ib : Ib) {vmid : ℕ} (hv : vmid < 4)
    (hib : ib.lengthDw < 2 ^ 24) : packetVmid (ringEmitIb type ib vmid) = vmid := by
  have hfit : ib.lengthDw ||| vmid <<< 24 < 2 ^ (24 + 8) :=
    Bits.or_shiftLeft_lt hib (by omega)
  unfold packetVmid
  rw [emit_control, Nat.mod_eq_of_lt hfit, Bits.or_shiftLeft_div, Nat.div_eq_of_lt hib,
    Nat.zero_or, Nat.mod_eq_of_lt (by omega)]

/-- A request that is accepted names at least one chunk. -/
theorem chunks_ne_nil_of_accepted {env : Env} {req : Request} {job : Job} {p : Parser}
    (h : csIoctl env req Parser.zero = .ok (.ok job, p)) : req.chunks ≠ [] := by
  intro hnil
  have hwp : wp False (csIoctl env req) (fun r _ => r = .ok job) Parser.zero := by
    unfold wp
    rw [h]
  unfold csIoctl at hwp
  rw [wp_ite] at hwp
  split at hwp
  · simp [csPasses, csParserInit, hnil, csIbFill, parserChunks, Parser.zero, ibFillLoop] at hwp
  · cases hwp

/-- The job of an accepted submission holds the IBs of its chunks. -/
theorem accepted_ibs {env : Env} {req : Request} {job : Job} {p : Parser}
    (h : csIoctl env req Parser.zero = .ok (.ok job, p)) : job.ibs = reqIbs req.chunks := by
  have hspec : wp True (csIoctl env req) (fun r _ => ∀ job, r = .ok job →
      job.ibs = reqIbs req.chunks) Parser.zero := by
    unfold csIoctl
    rw [wp_ite]
    split
    · rw [wp_ensuring]
      refine wp_mono (csPasses_spec env (chunks_ne_nil_of_accepted h) (fun hF => absurd trivial hF)
        (fun hF => absurd trivial hF) fun hF => absurd trivial hF) fun r p' hr => ?_
      exact wp_mono (csParserFini_spec hr.1) fun _ _ _ => hr.2
    · intro job hjob
      cases hjob
  exact of_wp hspec h job rfl

theorem granted_one : Granted 1 :=
  ⟨[], _, ⟨fun _ => true, true, true, true⟩, ⟨1, false, 0⟩, 0, .hw 0 0, .create, ⟨0, false, 0, 0⟩,
    _, _, _, rfl, rfl⟩

/-- The packets of an accepted submission decode to the job's VMID and the IBs' lengths exactly
when every IB chunk asks for less than 64 MiB. -/
theorem packets_decode_iff {env : Env} {req : Request} {job : Job} {p : Parser}
    (h : csIoctl env req Parser.zero = .ok (.ok job, p)) :
    PacketsDecode job ↔ ∀ c ∈ req.chunks, c.chunkId = chunkIdIb → (c.data 4).toNat < 2 ^ 26 := by
  have hibs := accepted_ibs h
  constructor
  · intro hdec c hc hid
    have hmem : ibOfChunk c ∈ job.ibs := by
      rw [hibs]
      exact List.mem_map.mpr ⟨c, List.mem_filter.mpr ⟨hc, by simpa using hid⟩, rfl⟩
    have hlen := (hdec .xdma 1 granted_one).2
    rw [ibScheduleEmit, List.map_map] at hlen
    have hlen : packetLength (ringEmitIb .xdma (ibOfChunk c) 1) = (c.data 4).toNat / 4 :=
      List.map_inj_left.mp hlen _ hmem
    rw [packetLength_emit] at hlen
    simp only [ibOfChunk] at hlen
    omega
  · intro hreq type vmid hvmid
    have hlen : ∀ ib ∈ job.ibs, ib.lengthDw < 2 ^ 24 := by
      intro ib hib
      rw [hibs] at hib
      obtain ⟨c, hc, rfl⟩ := List.mem_map.mp hib
      obtain ⟨hc, hid⟩ := List.mem_filter.mp hc
      have := hreq c hc (by simpa using hid)
      simp only [ibOfChunk]
      omega
    unfold ibScheduleEmit
    simp only [List.map_map]
    refine ⟨List.map_inj_left.mpr fun ib hib => ?_, List.map_inj_left.mpr fun ib hib => ?_⟩
    · exact packetVmid_emit type ib hvmid.lt (hlen ib hib)
    · rw [Function.comp_apply, packetLength_emit, Nat.mod_eq_of_lt (hlen ib hib)]

/-- A request of one IB chunk of the given size, at address 0 on the first gfx ring. -/
def oneIb (ibBytes : UInt32) : Request :=
  ⟨1, 0, [⟨chunkIdIb, 8, fun i => if i = 4 then ibBytes else 0⟩]⟩

/-- A submission of one page is accepted, and its packet decodes. -/
theorem oneIb_page_decodes : ∃ job p,
    csIoctl (obligingEnv true true) (oneIb 0x4000) Parser.zero = .ok (.ok job, p) ∧
      PacketsDecode job := by
  obtain ⟨job, p, h⟩ : ∃ job p,
      csIoctl (obligingEnv true true) (oneIb 0x4000) Parser.zero = .ok (.ok job, p) := ⟨_, _, rfl⟩
  refine ⟨job, p, h, (packets_decode_iff h).mpr ?_⟩
  intro c hc _
  obtain rfl : c = ⟨chunkIdIb, 8, fun i => if i = 4 then 0x4000 else 0⟩ := by
    simpa [oneIb] using hc
  decide

/-- A submission of 128 MiB is accepted under VMID 1, and its packet runs under VMID 3. -/
theorem oneIb_runs_under_other_vmid : ∃ job p,
    csIoctl (obligingEnv true true) (oneIb 0x8000000) Parser.zero = .ok (.ok job, p) ∧
      Granted 1 ∧ (ibScheduleEmit .gfx job 1).map packetVmid = [3] ∧ ¬ PacketsDecode job := by
  refine ⟨_, _, rfl, granted_one, by decide, fun h => ?_⟩
  exact absurd (h .gfx 1 granted_one).1 (by decide)

end Gsgpu.Cs
