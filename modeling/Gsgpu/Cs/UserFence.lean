import Gsgpu.Cs.Total

/-! Where the fence write of a job lands: the address the buffer pass computes from the offset
of the last `FENCE` chunk, against the buffers that the `FENCE` chunks name. -/
namespace Gsgpu.Cs

open Prog

/-- The `FENCE` chunks among `cs` with their indices, the first of which is `i`. -/
def fenceChunks (i : ℕ) (cs : List Chunk) : List (Chunk × ℕ) :=
  (cs.zipIdx i).filter (·.1.chunkId = chunkIdFence)

/-- The buffer a `FENCE` chunk names. -/
def fenceBo (env : Env) (x : Chunk × ℕ) : Option Bo := env.gemObjectLookup x.2 (x.1.data 0)

/-- `data->offset` of a `FENCE` chunk. -/
def fenceOffset (x : Chunk × ℕ) : UInt32 := x.1.data 1

/-- The 64-bit write at `addr` lands in the buffer. -/
def Bo.Covers (b : Bo) (addr : ℕ) : Prop := b.gpuOffset ≤ addr ∧ addr + 8 ≤ b.gpuOffset + b.size

/-- What an accepted `FENCE` chunk has passed. -/
def FenceChecked (env : Env) (x : Chunk × ℕ) : Prop :=
  ∃ b, fenceBo env x = some b ∧ b.size = pageSize ∧ ufEnd (fenceOffset x) ≤ pageSize

theorem fenceChunks_cons_of_eq {c : Chunk} (h : c.chunkId = chunkIdFence) (i : ℕ)
    (cs : List Chunk) : fenceChunks i (c :: cs) = (c, i) :: fenceChunks (i + 1) cs := by
  simp [fenceChunks, h]

theorem fenceChunks_cons_of_ne {c : Chunk} (h : c.chunkId ≠ chunkIdFence) (i : ℕ)
    (cs : List Chunk) : fenceChunks i (c :: cs) = fenceChunks (i + 1) cs := by
  simp [fenceChunks, h]

/-! ### The first pass -/

/-- What a turn, or a suffix, of the loop over the chunks leaves of the user fence: the
last of the `FENCE` chunks `fs` is the one that counts. -/
def FencePost (env : Env) (fs : List (Chunk × ℕ)) (uf : UInt32) (p : Parser)
    (r : Except Errno (ℕ × UInt32)) (p' : Parser) : Prop :=
  ∀ n u, r = .ok (n, u) → (∀ x ∈ fs, FenceChecked env x) ∧
    p'.ufRobj = (fs.getLast?.elim p.ufRobj (fenceBo env)) ∧ u = fs.getLast?.elim uf fenceOffset

theorem csUserFenceChunk_fence (env : Env) (i : ℕ) (c : Chunk) (p : Parser) :
    wp True (csUserFenceChunk env i c) (fun r p' => ∀ u, r = .ok u →
      FenceChecked env (c, i) ∧ p'.ufRobj = fenceBo env (c, i) ∧ u = fenceOffset (c, i)) p := by
  unfold csUserFenceChunk
  rw [wp_bind]
  refine wp_readWord_of (n := 1) (by simp) (by omega) ?_
  dsimp only
  split
  · simp
  · next b hb =>
    simp only [wp_bind, wp_modify, wp_ite, wp_fail]
    split
    · simp
    · next hsize =>
      refine wp_readWord_of (n := 2) (by simp) (by omega) ?_
      dsimp only
      split
      · simp
      · next hfit =>
        intro u hu
        obtain rfl := Except.ok.inj hu
        simp only [ne_eq, not_not] at hsize
        simp only [Bool.or_eq_true, decide_eq_true_eq, not_or, Nat.not_lt] at hfit
        exact ⟨⟨b, hb, hsize, hsize ▸ hfit.1⟩, hb.symm, rfl⟩

theorem csBoHandlesChunk_fence (env : Env) (i : ℕ) (c : Chunk) (p : Parser) :
    wp True (csBoHandlesChunk env i c) (fun r p' => r = .ok () →
      p'.ufRobj = p.ufRobj) p := by
  unfold csBoHandlesChunk
  rw [wp_bind]
  refine wp_readQword_of (n := 6) (by simp) (by omega) ?_
  simp only [wp_bind]
  refine wp_readWord_of (n := 6) (by simp) (by omega) ?_
  refine wp_readWord_of (n := 6) (by simp) (by omega) ?_
  simp only [wp_outcome, wp_modify]
  split
  · simp
  · split
    · simp
    · exact fun _ => trivial

theorem parserInitChunk_fence (env : Env) (i : ℕ) (c : Chunk) (numIbs : ℕ) (uf : UInt32)
    (p : Parser) :
    wp True (parserInitChunk env i c numIbs uf)
      (FencePost env (fenceChunks i [c]) uf p) p := by
  have hkeep : c.chunkId ≠ chunkIdFence → ∀ (n : ℕ) (p' : Parser),
      p'.ufRobj = p.ufRobj → FencePost env (fenceChunks i [c]) uf p (.ok (n, uf)) p' := by
    intro hne n p' hrobj n' u hr
    obtain ⟨rfl, rfl⟩ := Prod.mk.inj (Except.ok.inj hr)
    simp [fenceChunks, hne, hrobj]
  have hfail : ∀ e p', FencePost env (fenceChunks i [c]) uf p (.error e) p' := by
    intro e p' n u hr
    cases hr
  unfold parserInitChunk
  simp only [wp_bind, wp_require, wp_ite, wp_pure, wp_fail]
  refine ⟨fun _ => ⟨fun _ => ⟨fun _ => ?_, fun _ => hfail _ _⟩, fun _ => hfail _ _⟩,
    fun _ => hfail _ _⟩
  split
  · next hib => exact hkeep (by rw [hib]; decide) _ p rfl
  · split
    · next hf =>
      split
      · exact hfail _ _
      · refine wp_mono (csUserFenceChunk_fence env i c p) fun r p' hr => ?_
        cases r with
        | error e => exact hfail _ _
        | ok off =>
          obtain ⟨hchecked, hrobj, rfl⟩ := hr off rfl
          intro n u hok
          obtain ⟨rfl, rfl⟩ := Prod.mk.inj (Except.ok.inj hok)
          simp [fenceChunks, hf, hchecked, hrobj]
    · next hnf =>
      split
      · split
        · exact hfail _ _
        · refine wp_mono (csBoHandlesChunk_fence env i c p) fun r p' hr => ?_
          cases r with
          | error e => exact hfail _ _
          | ok _ => exact hkeep hnf _ p' (hr rfl)
      · split
        · exact hkeep hnf _ p rfl
        · exact hfail _ _

theorem FencePost.append {env : Env} {fs gs : List (Chunk × ℕ)} {n : ℕ} {uf u : UInt32}
    {p p₁ p' : Parser} {r : Except Errno (ℕ × UInt32)}
    (h : FencePost env fs uf p (.ok (n, u)) p₁) (h' : FencePost env gs u p₁ r p') :
    FencePost env (fs ++ gs) uf p r p' := by
  intro n' u' hr
  obtain ⟨hfs, hrobj, hu⟩ := h n u rfl
  obtain ⟨hgs, hrobj', hu'⟩ := h' n' u' hr
  refine ⟨?_, ?_, ?_⟩
  · intro x hx
    cases List.mem_append.mp hx with
    | inl hx => exact hfs x hx
    | inr hx => exact hgs x hx
  · rw [hrobj', hrobj, List.getLast?_append]
    cases gs.getLast? <;> rfl
  · rw [hu', hu, List.getLast?_append]
    cases gs.getLast? <;> rfl

theorem fenceChunks_cons (c : Chunk) (i : ℕ) (cs : List Chunk) :
    fenceChunks i (c :: cs) = fenceChunks i [c] ++ fenceChunks (i + 1) cs := by
  by_cases h : c.chunkId = chunkIdFence
  · rw [fenceChunks_cons_of_eq h, fenceChunks_cons_of_eq h]
    rfl
  · rw [fenceChunks_cons_of_ne h, fenceChunks_cons_of_ne h]
    rfl

theorem parserInitLoop_fence (env : Env) (cs : List Chunk) (i numIbs : ℕ) (uf : UInt32)
    (p : Parser) :
    wp True (parserInitLoop env i cs numIbs uf) (FencePost env (fenceChunks i cs) uf p) p := by
  induction cs generalizing i numIbs uf p with
  | nil =>
    intro n u hr
    obtain ⟨rfl, rfl⟩ := Prod.mk.inj (Except.ok.inj hr)
    simp [fenceChunks]
  | cons c cs ih =>
    unfold parserInitLoop
    rw [wp_bind, fenceChunks_cons]
    refine wp_mono (parserInitChunk_fence env i c numIbs uf p) fun r p₁ hr => ?_
    cases r with
    | error e => exact fun n u h => by cases h
    | ok nu => exact wp_mono (ih (i + 1) nu.1 nu.2 p₁) fun r p' hr' => hr.append hr'

/-- The fence address the job holds before the buffer pass has added the buffer's. -/
def Parser.ufAddr (p : Parser) : Option ℕ := p.job.map (·.ufAddr)

/-- What the first pass leaves for the fence of the last `FENCE` chunk. -/
structure FenceParsed (env : Env) (req : Request) (p : Parser) : Prop where
  checked : ∀ x ∈ fenceChunks 0 req.chunks, FenceChecked env x
  ufRobj : p.ufRobj = (fenceChunks 0 req.chunks).getLast?.bind (fenceBo env)
  ufAddr : ∀ x, (fenceChunks 0 req.chunks).getLast? = some x →
    p.ufAddr = some (fenceOffset x).toNat

theorem csParserInit_fence (env : Env) {req : Request} (hne : req.chunks ≠ []) :
    wp True (csParserInit env req) (fun r p => r = .ok () → FenceParsed env req p)
      Parser.zero := by
  have hlen : req.chunks.length ≠ 0 := by simpa using hne
  unfold csParserInit
  simp only [wp_bind, if_neg hlen, wp_require]
  refine ⟨fun _ => ?_, by simp⟩
  split
  · simp
  · next ctx _ =>
    simp only [wp_bind, wp_modify, wp_require]
    refine ⟨fun _ => ⟨fun _ => ⟨fun _ => ?_, by simp⟩, by simp⟩, by simp⟩
    rw [wp_onError, wp_bind]
    refine wp_mono (parserInitLoop_fence env req.chunks 0 0 0 _) fun r p hr => ?_
    cases r with
    | error e => simp
    | ok nu =>
      obtain ⟨hchecked, hrobj, hu⟩ := hr nu.1 nu.2 rfl
      have hrobj : p.ufRobj = (fenceChunks 0 req.chunks).getLast?.bind (fenceBo env) := by
        rw [hrobj]
        cases (fenceChunks 0 req.chunks).getLast? <;> rfl
      simp only [jobAlloc, wp_bind, wp_ite]
      split
      · simp
      · simp only [wp_require, wp_modify, wp_gets]
        refine ⟨fun _ => wp_deref_allowed fun ctx _ => ?_, by simp⟩
        refine ⟨fun _ => ?_, by simp⟩
        dsimp only
        split
        · refine fun _ => ⟨hchecked, hrobj, fun x hx => ?_⟩
          rw [hu, hx]
          rfl
        · next hnone =>
          refine fun _ => ⟨hchecked, hrobj, fun x hx => ?_⟩
          -- the last chunk of the list has been looked up, so the parser holds a buffer
          obtain ⟨b, hb, -⟩ := hchecked x (List.mem_of_getLast? hx)
          rw [hrobj, hx] at hnone
          simp [hb] at hnone

/-! ### The later passes -/

/-- What the passes after the first leave as it was: all but the buffer pass the whole fence. -/
def FenceFrame (p p' : Parser) : Prop := p'.ufRobj = p.ufRobj ∧ p'.ufAddr = p.ufAddr

theorem FenceFrame.refl (p : Parser) : FenceFrame p p := ⟨rfl, rfl⟩

theorem FenceFrame.trans {p p' p'' : Parser} (h : FenceFrame p p') (h' : FenceFrame p' p'') :
    FenceFrame p p'' := ⟨h'.1.trans h.1, h'.2.trans h.2⟩

theorem FenceFrame.updateJob {f : Job → Job} {p p' : Parser} (hjob : p'.job = p.job.map f)
    (hrobj : p'.ufRobj = p.ufRobj) (hf : ∀ j, (f j).ufAddr = j.ufAddr) : FenceFrame p p' := by
  refine ⟨hrobj, ?_⟩
  simp [Parser.ufAddr, hjob, Function.comp_def, hf]

theorem notePreamble_fence (flags : UInt32) (p : Parser) :
    wp True (notePreamble flags) (fun _ p' => FenceFrame p p') p := by
  unfold notePreamble
  rw [wp_ite]
  split
  · rw [wp_modify]
    exact .updateJob rfl rfl fun _ => rfl
  · exact .refl p

theorem ibFillChunk_fence (env : Env) (i : ℕ) (c : Chunk) (p : Parser) :
    wp True (ibFillChunk env i c) (fun _ p' => FenceFrame p p') p := by
  unfold ibFillChunk
  simp only [wp_bind, wp_gets]
  refine wp_deref_allowed fun ctx _ => ?_
  refine wp_readWord_of (n := 8) (by simp) (by omega) ?_
  refine wp_readWord_of (n := 8) (by simp) (by omega) ?_
  refine wp_readWord_of (n := 8) (by simp) (by omega) ?_
  simp only [wp_outcome]
  split
  · exact .refl p
  · next ring _ =>
    refine wp_readWord_of (n := 8) (by simp) (by omega) ?_
    refine wp_mono (notePreamble_fence (c.data 1) p) fun r p₁ hr => ?_
    cases r with
    | error e => exact hr
    | ok _ =>
      simp only [wp_require, wp_modify]
      refine ⟨fun _ => ?_, fun _ => hr⟩
      have hring : FenceFrame p₁ { p₁ with ring := some ring } := .refl p₁
      split
      · exact hr.trans hring
      · refine wp_readQword_of (n := 8) (by simp) (by omega) ?_
        refine wp_readWord_of (n := 8) (by simp) (by omega) ?_
        exact hr.trans (.updateJob rfl rfl fun _ => rfl)

theorem ibFillLoop_fence (env : Env) (cs : List Chunk) (i j : ℕ) (p : Parser) :
    wp True (ibFillLoop env i cs j) (fun _ p' => FenceFrame p p') p := by
  induction cs generalizing i j p with
  | nil => exact .refl p
  | cons c cs ih =>
    unfold ibFillLoop
    simp only [wp_bind, wp_gets]
    refine wp_deref_allowed fun job _ => ?_
    simp only [wp_ite]
    split
    · exact .refl p
    · split
      · exact ih (i + 1) j p
      · rw [wp_bind]
        refine wp_mono (ibFillChunk_fence env i c p) fun r p₁ hr => ?_
        cases r with
        | error e => exact hr
        | ok _ => exact wp_mono (ih (i + 1) (j + 1) p₁) fun r p' hr' => hr.trans hr'

theorem csIbFill_fence (env : Env) {req : Request} {p : Parser} (h : Parsed req p) :
    wp True (csIbFill env) (fun _ p' => FenceFrame p p') p := by
  unfold csIbFill
  rw [wp_bind, wp_parserChunks h]
  simp only [wp_bind]
  refine wp_mono (ibFillLoop_fence env req.chunks 0 0 p) fun r p' hr => ?_
  cases r with
  | error e => exact hr
  | ok _ =>
    simp only [wp_gets]
    refine wp_deref_allowed fun ring _ => ?_
    refine wp_deref_allowed fun ctx _ => ?_
    simp only [wp_outcome]
    exact hr

theorem parserBoList_fence (env : Env) (req : Request) (p : Parser) :
    wp True (parserBoList env req) (fun _ p' => FenceFrame p p') p := by
  unfold parserBoList
  simp only [wp_bind, wp_gets, wp_ite]
  split
  · split
    · exact .refl p
    · rw [wp_outcome]
      split <;> exact .refl p
  · split
    · simp only [wp_outcome, wp_modify]
      split <;> exact .refl p
    · exact .refl p

theorem parserMn_fence (env : Env) (list : BoList) (p : Parser) :
    wp True (parserMn env list) (fun _ p' => FenceFrame p p') p := by
  unfold parserMn
  rw [wp_ite]
  split <;> exact .refl p

/-- The buffer pass adds the buffer's address to the offset. -/
theorem csParserBos_fence (env : Env) (req : Request) (p : Parser) :
    wp True (csParserBos env req) (fun r p' => r = .ok () → ∀ b, p.ufRobj = some b →
      p'.ufAddr = p.ufAddr.map (· + b.gpuOffset)) p := by
  unfold csParserBos
  rw [wp_bind]
  refine wp_mono (parserBoList_fence env req p) fun r p₁ hr₁ => ?_
  cases r with
  | error e => simp
  | ok _ =>
    simp only [wp_bind, wp_gets]
    refine wp_deref_allowed fun list _ => ?_
    refine wp_mono (parserMn_fence env list p₁) fun r p₂ hr₂ => ?_
    have hframe := hr₁.trans hr₂
    cases r with
    | error e => simp
    | ok _ =>
      simp only [wp_outcome]
      split
      · simp
      · split
        · next hnone =>
          intro _ b hb
          rw [← hframe.1, hnone] at hb
          cases hb
        · next uf huf =>
          simp only [wp_bind, wp_gets]
          refine wp_deref_allowed fun job hjob => ?_
          simp only [wp_modify, wp_outcome]
          intro _ b hb
          rw [← hframe.1, huf] at hb
          obtain rfl := Option.some.inj hb
          rw [← hframe.2]
          simp [Parser.ufAddr, hjob]

theorem traceCs_fence (p : Parser) : wp True traceCs (fun _ p' => p' = p) p := by
  unfold traceCs
  simp only [wp_bind, wp_gets]
  refine wp_deref_allowed fun job _ => ?_
  simp only [wp_ite]
  split
  · simp only [wp_bind, wp_gets]
    exact wp_deref_allowed fun ring _ => rfl
  · rfl

theorem csIbVmChunk_fence (env : Env) (p : Parser) :
    wp True (csIbVmChunk env) (fun _ p' => p' = p) p := by
  unfold csIbVmChunk
  simp only [wp_bind, wp_gets]
  refine wp_deref_allowed fun job _ => ?_
  simp only [wp_outcome]
  split
  · trivial
  · split <;> trivial

/-- The job that is pushed is the one the passes worked on. -/
theorem csSubmit_fence (env : Env) (p : Parser) :
    wp True (csSubmit env) (fun r _ => ∀ job, r = .ok job → p.ufAddr = some job.ufAddr) p := by
  unfold csSubmit
  simp only [wp_bind, wp_gets]
  refine wp_deref_allowed fun ring _ => ?_
  refine wp_deref_allowed fun ctx _ => ?_
  simp only [wp_modify]
  refine wp_deref_allowed fun job hjob => ?_
  simp only [wp_outcome]
  split
  · simp
  · have hlock : wp True (mnLock p.mn) (fun _ _ => True) { p with job := none } :=
      wp_of_forall fun _ _ => trivial
    refine wp_mono hlock fun r p' _ => ?_
    cases r with
    | error e => simp
    | ok _ =>
      refine wp_deref_allowed fun list _ => ?_
      simp only [wp_require]
      refine ⟨fun _ => ?_, by simp⟩
      split
      · simp
      · intro job' hj
        obtain rfl := Except.ok.inj hj
        simp [Parser.ufAddr, hjob]

/-- What an accepted request amounts to: its `FENCE` chunks are checked, and the last of them gives
the address in the job that is pushed. -/
structure FencePushed (env : Env) (req : Request) (job : Job) : Prop where
  checked : ∀ x ∈ fenceChunks 0 req.chunks, FenceChecked env x
  ufAddr : ∀ x b, (fenceChunks 0 req.chunks).getLast? = some x → fenceBo env x = some b →
    job.ufAddr = (fenceOffset x).toNat + b.gpuOffset

theorem csPasses_fence (env : Env) {req : Request} (hne : req.chunks ≠ []) :
    wp True (csPasses env req) (fun r _ => ∀ job, r = .ok job → FencePushed env req job)
      Parser.zero := by
  unfold csPasses
  rw [wp_bind]
  have hinit := wp_and (csParserInit_spec (F := True) env req hne (by simp) (by simp))
    (csParserInit_fence env hne)
  refine wp_mono hinit fun r p hr => ?_
  cases r with
  | error e => simp
  | ok _ =>
    obtain ⟨hini, hfence⟩ := hr
    obtain ⟨hchecked, hrobj, haddr⟩ := hfence rfl
    rw [wp_bind]
    refine wp_mono (wp_and (csIbFill_spec env hini (by simp)) (csIbFill_fence env hini.toParsed))
      fun r p₁ hr => ?_
    obtain ⟨⟨hparsed, hfilled⟩, hframe⟩ := hr
    cases r with
    | error e => simp
    | ok _ =>
      rw [wp_bind]
      refine wp_mono (wp_and (csParserBos_spec env (hfilled rfl)) (csParserBos_fence env req p₁))
        fun r p₂ hr => ?_
      obtain ⟨⟨hparsed₂, hlisted⟩, hbos⟩ := hr
      cases r with
      | error e => simp
      | ok _ =>
        obtain ⟨job, hjob, -⟩ := (hlisted rfl).job
        rw [wp_bind, wp_parserChunks hparsed₂]
        simp only [wp_bind]
        refine wp_mono (csDependencies_spec env 0 req.chunks hjob) fun r p₃ hr => ?_
        obtain ⟨m, rfl⟩ := hr
        cases r with
        | error e => simp
        | ok _ =>
          refine wp_mono (traceCs_fence _) fun r p' hr => ?_
          subst hr
          cases r with
          | error e => simp
          | ok _ =>
            refine wp_mono (csIbVmChunk_fence env _) fun r p' hr => ?_
            subst hr
            cases r with
            | error e => simp
            | ok _ =>
              refine wp_mono (csSubmit_fence env _) fun r p' hr => ?_
              intro job' hj
              refine ⟨hchecked, fun x b hx hb => ?_⟩
              have hrobj : p₁.ufRobj = some b := by rw [hframe.1, hrobj, hx]; exact hb
              have huf : some job'.ufAddr = some ((fenceOffset x).toNat + b.gpuOffset) :=
                calc some job'.ufAddr = p₂.ufAddr := (hr job' hj).symm
                  _ = p₁.ufAddr.map (· + b.gpuOffset) := hbos rfl b hrobj
                  _ = some ((fenceOffset x).toNat + b.gpuOffset) := by
                    rw [hframe.2, haddr x hx]
                    rfl
              exact Option.some.inj huf

/-- The chunk's fence is written inside the buffer that the chunk names. -/
def FenceInside (env : Env) (job : Job) (x : Chunk × ℕ) : Prop :=
  ∃ b, fenceBo env x = some b ∧ b.Covers job.ufAddr

/-- The end of the last `FENCE` chunk's fence fits in 32 bits, and the other `FENCE` chunks name
a buffer at the same address. -/
def FenceSound (env : Env) (req : Request) : Prop :=
  ∀ l, (fenceChunks 0 req.chunks).getLast? = some l → (fenceOffset l).toNat + 8 < 2 ^ 32 ∧
    ∀ x ∈ fenceChunks 0 req.chunks,
      (fenceBo env x).map (·.gpuOffset) = (fenceBo env l).map (·.gpuOffset)

theorem ufEnd_eq {offset : UInt32} (h : offset.toNat + 8 < 2 ^ 32) :
    ufEnd offset = offset.toNat + 8 := by
  unfold ufEnd
  rw [UInt32.toNat_add]
  exact Nat.mod_eq_of_lt h

/-- Buffers of one page start at multiples of it, so two of them cannot cover one address. -/
theorem Bo.Covers.gpuOffset_eq {b b' : Bo} {addr : ℕ} (h : b.Covers addr) (h' : b'.Covers addr)
    (hb : b.size = pageSize ∧ pageSize ∣ b.gpuOffset)
    (hb' : b'.size = pageSize ∧ pageSize ∣ b'.gpuOffset) : b.gpuOffset = b'.gpuOffset := by
  obtain ⟨hsize, m, hm⟩ := hb
  obtain ⟨hsize', m', hm'⟩ := hb'
  unfold Bo.Covers at h h'
  rw [hsize, hm] at h
  rw [hsize', hm'] at h'
  unfold pageSize at *
  omega

theorem csIoctl_fence {env : Env} {req : Request} {job : Job} {p : Parser}
    (hrun : csIoctl env req Parser.zero = .ok (.ok job, p)) : FencePushed env req job := by
  by_cases hne : req.chunks = []
  · exact ⟨by simp [hne, fenceChunks], by simp [hne, fenceChunks]⟩
  · have hwp : wp True (csIoctl env req) (fun r _ => ∀ job, r = .ok job →
        FencePushed env req job) Parser.zero := by
      unfold csIoctl
      rw [wp_ite]
      split
      · rw [wp_ensuring]
        refine wp_mono (csPasses_fence env hne) fun r p' hr => ?_
        exact wp_mono (wp_of_forall fun _ _ => trivial) fun _ _ _ => hr
      · simp
    exact of_wp hwp hrun job rfl

/-- Every `FENCE` chunk of an accepted request has the job's fence written inside the buffer it
names exactly when the last one's offset leaves room for the fence below `2 ^ 32`, and the others
name a buffer at the same address. GPU addresses of buffers count whole pages. -/
theorem userFence_inside_iff {env : Env} {req : Request} {job : Job} {p : Parser}
    (hpage : ∀ i handle b, env.gemObjectLookup i handle = some b → pageSize ∣ b.gpuOffset)
    (hrun : csIoctl env req Parser.zero = .ok (.ok job, p)) :
    (∀ x ∈ fenceChunks 0 req.chunks, FenceInside env job x) ↔ FenceSound env req := by
  obtain ⟨hchecked, haddr⟩ := csIoctl_fence hrun
  constructor
  · intro hinside l hl
    obtain ⟨b, hb, hcov⟩ := hinside l (List.mem_of_getLast? hl)
    obtain ⟨b', hb', hsize, -⟩ := hchecked l (List.mem_of_getLast? hl)
    obtain rfl : b' = b := Option.some.inj (hb'.symm.trans hb)
    refine ⟨?_, fun x hx => ?_⟩
    · unfold Bo.Covers pageSize at *
      rw [haddr l b' hl hb] at hcov
      omega
    · obtain ⟨c, hc, hcovc⟩ := hinside x hx
      obtain ⟨c', hc', hsizec, -⟩ := hchecked x hx
      obtain rfl : c' = c := Option.some.inj (hc'.symm.trans hc)
      rw [hb, hc]
      exact congrArg some (hcovc.gpuOffset_eq hcov ⟨hsizec, hpage _ _ _ hc⟩
        ⟨hsize, hpage _ _ _ hb⟩)
  · intro hsound x hx
    obtain ⟨l, hl⟩ : ∃ l, (fenceChunks 0 req.chunks).getLast? = some l := by
      cases h : (fenceChunks 0 req.chunks).getLast? with
      | some l => exact ⟨l, rfl⟩
      | none => rw [List.getLast?_eq_none_iff.mp h] at hx; cases hx
    obtain ⟨hroom, hsame⟩ := hsound l hl
    obtain ⟨b, hb, hsize, hend⟩ := hchecked l (List.mem_of_getLast? hl)
    obtain ⟨c, hc, hsizec, -⟩ := hchecked x hx
    have hoff : c.gpuOffset = b.gpuOffset := by
      have h := hsame x hx
      rw [hb, hc] at h
      exact Option.some.inj h
    refine ⟨c, hc, ?_⟩
    rw [ufEnd_eq hroom] at hend
    unfold Bo.Covers
    rw [haddr l b hl hb, hsizec, hoff]
    omega

/-- An IB chunk and a `FENCE` chunk for a fence at `offset`, both with the words they need. -/
def fenceRequest (offset : UInt32) : Request :=
  ⟨1, 0, [⟨chunkIdIb, 8, fun _ => 0⟩, ⟨chunkIdFence, 2, fun i => if i = 1 then offset else 0⟩]⟩

/-- A fence at the start of the page. -/
theorem userFence_inside_iff_first :
    ∃ job p, csIoctl (obligingEnv true true) (fenceRequest 0) Parser.zero = .ok (.ok job, p) ∧
      ((∀ x ∈ fenceChunks 0 (fenceRequest 0).chunks, FenceInside (obligingEnv true true) job x) ↔
        FenceSound (obligingEnv true true) (fenceRequest 0)) := by
  refine ⟨_, _, rfl, userFence_inside_iff ?_ rfl⟩
  intro i handle b hb
  obtain rfl := Option.some.inj hb
  exact Nat.dvd_zero _

/-- An offset whose end wraps to 0 is accepted, and the fence is written far behind the page. -/
theorem userFence_wraps : ¬ ∀ env req job p,
    (∀ i handle b, env.gemObjectLookup i handle = some b → pageSize ∣ b.gpuOffset) →
    csIoctl env req Parser.zero = .ok (.ok job, p) →
    ∀ x ∈ fenceChunks 0 req.chunks, FenceInside env job x := by
  intro h
  have hpage : ∀ i handle b, (obligingEnv true true).gemObjectLookup i handle = some b →
      pageSize ∣ b.gpuOffset := by
    intro i handle b hb
    obtain rfl := Option.some.inj hb
    exact Nat.dvd_zero _
  obtain ⟨b, hb, hcov⟩ := h (obligingEnv true true) (fenceRequest 0xFFFFFFF8) _ _ hpage rfl
    (⟨chunkIdFence, 2, fun i => if i = 1 then 0xFFFFFFF8 else 0⟩, 1) (by
      simp [fenceChunks, fenceRequest, chunkIdIb, chunkIdFence])
  obtain rfl := Option.some.inj hb
  exact absurd hcov.2 (by decide)

end Gsgpu.Cs
