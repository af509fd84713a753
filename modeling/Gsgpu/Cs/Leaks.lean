import Gsgpu.Cs.Balance
import Gsgpu.Cs.Total

/-! The later passes of the command submission ioctl, and which requests lose references. -/
namespace Gsgpu.Cs.References

open Prog Ledger

section IbFill

variable {env : Env} {p : Parser} {i j : ℕ} {c : Chunk} {cs : List Chunk} {ring : Ring}

/-- All IB chunks are for one ring, from the `i`-th chunk on. -/
def IbsOk (env : Env) (ring : Ring) : ℕ → List Chunk → Prop
  | _, [] => True
  | i, c :: cs => (c.chunkId = chunkIdIb →
      env.queueMgrMap i 0 (c.data 5) (c.data 6) (c.data 7) = .ok ring ∧ env.ibGet i = .ok ()) ∧
      IbsOk env ring (i + 1) cs

theorem IbsOk.unique {ring' : Ring} (h : IbsOk env ring i cs) (h' : IbsOk env ring' i cs)
    (hpos : 0 < ibCount cs) : ring = ring' := by
  induction cs generalizing i with
  | nil => simp [ibCount] at hpos
  | cons c cs ih =>
    by_cases hid : c.chunkId = chunkIdIb
    · exact Except.ok.inj ((h.1 hid).1.symm.trans (h'.1 hid).1)
    · rw [ibCount_cons_of_ne cs hid] at hpos
      exact ih h.2 h'.2 hpos

theorem ibsOk_of_no_ibs (h : ibCount cs = 0) (ring : Ring) (i : ℕ) : IbsOk env ring i cs := by
  induction cs generalizing i with
  | nil => trivial
  | cons c cs ih =>
    by_cases hid : c.chunkId = chunkIdIb
    · rw [ibCount_cons_of_eq cs hid] at h
      cases h
    · rw [ibCount_cons_of_ne cs hid] at h
      exact ⟨fun hid' => (hid hid').elim, ih h (i + 1)⟩

/-- What one IB chunk leaves, and when it is accepted. -/
theorem ibFillChunk_exact {job : Job} (hjob : p.job = some job) :
    wp True (ibFillChunk env i c) (fun r p' => Quiet p p' ∧
      (∃ job', p'.job = some job' ∧ job'.numIbs = job.numIbs) ∧
      (IsOk r ↔ ∃ ring, env.queueMgrMap i 0 (c.data 5) (c.data 6) (c.data 7) = .ok ring ∧
        p.ring.all (· = ring) = true ∧ env.ibGet i = .ok ()) ∧
      (IsOk r → ∃ ring, env.queueMgrMap i 0 (c.data 5) (c.data 6) (c.data 7) = .ok ring ∧
        p'.ring = some ring)) p := by
  simp only [ibFillChunk, wp_bind, wp_gets]
  cases hctx : p.ctx with
  | none => trivial
  | some ctx =>
    simp only [wp_deref_some, wp_readWord, implies_true, and_true, wp_outcome]
    intro _ _ _
    split
    · next e he =>
      refine ⟨.refl p, ⟨job, hjob, rfl⟩, ⟨False.elim, ?_⟩, False.elim⟩
      rintro ⟨ring, hring, -⟩
      cases he.symm.trans hring
    · next ring hring =>
      intro _
      -- the preamble flag is the only thing that may have changed so far
      have hflag : wp True (notePreamble (c.data 1)) (fun r p' => r = .ok () ∧ ∃ b,
          p' = { p with job := some { job with preamblePresent := b } }) p := by
        unfold notePreamble
        rw [wp_ite]
        split
        · exact ⟨rfl, true, by simp [hjob]⟩
        · exact ⟨rfl, job.preamblePresent, by rw [← hjob]⟩
      refine wp_mono hflag fun r p₁ hr => ?_
      obtain ⟨rfl, b, rfl⟩ := hr
      have hquiet : ∀ job' ring', Quiet p { p with job := some job', ring := ring' } :=
        fun _ _ => ⟨rfl, rfl, by rw [hjob]; rfl, rfl, rfl⟩
      simp only [wp_require, wp_modify]
      refine ⟨fun hsame => ?_, fun hsame => ?_⟩
      · split
        · next e he =>
          refine ⟨hquiet _ _, ⟨_, rfl, rfl⟩, ⟨False.elim, ?_⟩, False.elim⟩
          rintro ⟨_, -, -, hget⟩
          cases he.symm.trans hget
        · next hget =>
          simp only [readQword, wp_bind, wp_readWord, wp_pure, implies_true, and_true, Option.map_some]
          intro _ _ _
          exact ⟨hquiet _ _, ⟨_, rfl, rfl⟩, ⟨fun _ => ⟨ring, hring, hsame, hget⟩, fun _ => trivial⟩,
            fun _ => ⟨ring, hring, rfl⟩⟩
      · refine ⟨hquiet _ p.ring, ⟨_, rfl, rfl⟩, ⟨False.elim, ?_⟩, False.elim⟩
        rintro ⟨ring', hring', hall, -⟩
        rw [Except.ok.inj (hring.symm.trans hring')] at hsame
        rw [hall] at hsame
        cases hsame

/-- The IB pass, from a state with a ring or without. -/
theorem ibFillLoop_exact {job : Job} (hjob : p.job = some job) (hn : job.numIbs = j + ibCount cs) :
    wp True (ibFillLoop env i cs j) (fun r p' => Quiet p p' ∧
      (IsOk r ↔ ∃ ring, p.ring.all (· = ring) = true ∧ IbsOk env ring i cs) ∧
      (IsOk r → 0 < ibCount cs → ∃ ring, p'.ring = some ring ∧ IbsOk env ring i cs) ∧
      (IsOk r → p.ring.isSome → p'.ring = p.ring)) p := by
  have hany : ∃ ring, p.ring.all (· = ring) = true := by
    cases p.ring with
    | none => exact ⟨⟨0, .gfx⟩, rfl⟩
    | some ring => exact ⟨ring, by simp⟩
  obtain ⟨ring₀, hring₀⟩ := hany
  induction cs generalizing i j p job ring₀ with
  | nil =>
    exact ⟨.refl p, ⟨fun _ => ⟨ring₀, hring₀, trivial⟩, fun _ => trivial⟩, by simp [ibCount], fun _ _ => rfl⟩
  | cons c cs ih =>
    unfold ibFillLoop
    simp only [wp_bind, wp_gets, hjob, wp_deref_some, wp_ite]
    split
    · next hle =>
      have hzero : ibCount (c :: cs) = 0 := by omega
      exact ⟨.refl p, ⟨fun _ => ⟨ring₀, hring₀, ibsOk_of_no_ibs hzero ring₀ i⟩, fun _ => trivial⟩,
        by simp [hzero], fun _ _ => rfl⟩
    · split
      · next hid =>
        have hskip : ∀ ring, IbsOk env ring i (c :: cs) ↔ IbsOk env ring (i + 1) cs := fun ring =>
          ⟨fun h => h.2, fun h => ⟨fun hid' => (hid hid').elim, h⟩⟩
        rw [ibCount_cons_of_ne cs hid] at hn ⊢
        simp only [hskip]
        exact ih hjob hn ring₀ hring₀
      · next hid =>
        have hid : c.chunkId = chunkIdIb := by simpa using hid
        rw [ibCount_cons_of_eq cs hid] at hn
        refine wp_mono (ibFillChunk_exact hjob) fun r p₁ hr => ?_
        obtain ⟨hquiet, ⟨job₁, hjob₁, hnum⟩, hok, hring⟩ := hr
        cases r with
        | error e =>
          refine ⟨hquiet, ⟨False.elim, ?_⟩, False.elim, False.elim⟩
          rintro ⟨ring, hall, hibs, -⟩
          exact hok.mpr ⟨ring, (hibs hid).1, hall, (hibs hid).2⟩
        | ok _ =>
          obtain ⟨ring₁, hmap, hring₁⟩ := hring trivial
          obtain ⟨ring', hmap', hall, hget⟩ := hok.mp trivial
          obtain rfl := Except.ok.inj (hmap.symm.trans hmap')
          have hcons : IbsOk env ring₁ i (c :: cs) ↔ IbsOk env ring₁ (i + 1) cs :=
            ⟨fun h => h.2, fun h => ⟨fun _ => ⟨hmap, hget⟩, h⟩⟩
          refine wp_mono (ih hjob₁ (by omega) ring₁ (by rw [hring₁]; exact decide_eq_true rfl))
            fun r p' hr => ?_
          obtain ⟨hquiet', hok', -, hkeep⟩ := hr
          have hiff : IsOk r ↔ IbsOk env ring₁ i (c :: cs) := by
            rw [hok', hcons, hring₁]
            simp
          refine ⟨hquiet.trans hquiet', ?_, ?_, ?_⟩
          · rw [hiff]
            refine ⟨fun h => ⟨ring₁, hall, h⟩, ?_⟩
            rintro ⟨ring, -, h⟩
            exact Except.ok.inj ((h.1 hid).1.symm.trans hmap) ▸ h
          · intro hr _
            exact ⟨ring₁, (hkeep hr (by rw [hring₁]; rfl)).trans hring₁, hiff.mp hr⟩
          · intro hr hsome
            obtain ⟨q, hq⟩ := Option.isSome_iff_exists.mp hsome
            rw [hkeep hr (by rw [hring₁]; rfl), hring₁, hq]
            rw [hq] at hall
            exact congrArg some (of_decide_eq_true hall).symm

/-- `gsgpu_cs_ib_fill` returns 0. -/
def FillOk (env : Env) (req : Request) : Prop :=
  ∃ ring, IbsOk env ring 0 req.chunks ∧ env.ctxWaitPrevFence ring.idx = .ok ()

theorem csIbFill_exact {req : Request} (h : Initialized env req p) :
    wp True (csIbFill env) (fun r p' => Quiet p p' ∧ (IsOk r ↔ FillOk env req)) p := by
  obtain ⟨job, hjob, hn, -⟩ := h.job
  unfold csIbFill
  rw [wp_bind, wp_parserChunks h.toParsed]
  simp only [wp_bind]
  refine wp_mono (ibFillLoop_exact hjob (by omega)) fun r p₁ hr => ?_
  obtain ⟨hquiet, hok, hring, -⟩ := hr
  cases r with
  | error e =>
    refine ⟨hquiet, nofun, ?_⟩
    rintro ⟨ring, hibs, -⟩
    exact hok.mpr ⟨ring, by rw [h.ring]; rfl, hibs⟩
  | ok _ =>
    obtain ⟨ring, hring, hibs⟩ := hring trivial h.ibs
    simp only [wp_gets]
    refine wp_deref_of hring ?_
    dsimp only
    cases hctx : p₁.ctx with
    | none => trivial
    | some ctx =>
      simp only [wp_deref_some, wp_outcome]
      refine ⟨hquiet, ?_⟩
      cases hwait : env.ctxWaitPrevFence ring.idx with
      | error e =>
        refine ⟨nofun, ?_⟩
        rintro ⟨ring', hibs', hwait'⟩
        rw [← hibs.unique hibs' h.ibs, hwait] at hwait'
        cases hwait'
      | ok _ => exact ⟨fun _ => ⟨ring, hibs, hwait⟩, fun _ => trivial⟩

end IbFill

variable {env : RefEnv} {req : Request} {s s' : State}

section Bos

/-- `gsgpu_cs_parser_bos` gets a list. -/
def ListOk (env : Env) (req : Request) : Prop :=
  if req.boListHandle ≠ 0 then
    ¬ Has chunkIdBoHandles req.chunks ∧ IsOk (env.boListGet req.boListHandle)
  else Has chunkIdBoHandles req.chunks ∨ IsOk env.boListEmpty

/-- The list of the handle has been found, but not a reference to it. -/
def ListDying (env : RefEnv) (req : Request) : Prop :=
  req.boListHandle ≠ 0 ∧ ¬ Has chunkIdBoHandles req.chunks ∧
    ¬ IsOk (env.boListGet req.boListHandle) ∧ env.boListDying = true

/-- `gsgpu_cs_parser_bos` returns 0. -/
structure BosOk (env : Env) (req : Request) : Prop where
  list : ListOk env req
  reserve : IsOk env.reserveAndValidate
  gart : Has chunkIdFence req.chunks → IsOk env.allocGart

/-- What a pass leaves of the dependencies and of the fence. -/
structure SamePostDep (s s' : State) : Prop where
  syncobjs : s'.own.postDepSyncobjs = s.own.postDepSyncobjs
  size : s'.own.postDepSize = s.own.postDepSize
  fence : s'.own.fence = s.own.fence

/-- The account, less a reference that was never taken. -/
def Misses (s s' : State) (l : ListId) (P : Prop) : Prop :=
  (¬ P → s'.extra = s.extra) ∧ (P → s'.extra = s.extra - Pi.single (.boList l) 1)

theorem parserBoList_balance
    (hown : s.own.boList.isSome = true ↔ Has chunkIdBoHandles req.chunks)
    (hparser : s.parser.boList.isSome = true ↔ Has chunkIdBoHandles req.chunks) :
    wp True (parserBoList env req) (fun r s' => (IsOk r ↔ ListOk env.toEnv req) ∧
      Misses s s' (.handle req.boListHandle) (ListDying env req) ∧ SamePostDep s s' ∧
      s'.parser = { s.parser with boList := s'.parser.boList }) s := by
  simp only [parserBoList, wp_bind, wp_run_gets, wp_ite, wp_fail, wp_pure, wp_onError, wp_outcome,
    wp_take, wp_run_modify, wp_setOwn]
  split
  · next hhandle =>
    split
    · next hsome =>
      have hhas := hparser.mp hsome
      refine ⟨⟨nofun, ?_⟩, ⟨fun _ => rfl, fun h => (h.2.1 hhas).elim⟩, ⟨rfl, rfl, rfl⟩, trivial⟩
      rw [ListOk, if_pos hhandle]
      exact fun h => h.1 hhas
    · next hnone =>
      have hhas : ¬ Has chunkIdBoHandles req.chunks := fun h => hnone (hparser.mpr h)
      have hownNone : s.own.boList = none := by
        rw [← hown] at hhas
        simpa using hhas
      cases hget : env.boListGet req.boListHandle with
      | error e =>
        have hnot : ¬ IsOk (env.boListGet req.boListHandle) := by
          rw [hget]
          exact nofun
        refine ⟨⟨nofun, ?_⟩, ⟨fun hdying => ?_, fun hdying => ?_⟩, ⟨rfl, rfl, rfl⟩, rfl⟩
        · rw [ListOk, if_pos hhandle]
          exact fun h => hnot h.2
        · have hfalse : env.boListDying = false := by
            cases hd : env.boListDying with
            | false => rfl
            | true => exact (hdying ⟨hhandle, hhas, hnot, hd⟩).elim
          simp [hfalse, hownNone]
        · simp [hdying.2.2.2, hownNone]
      | ok list =>
        refine ⟨⟨fun _ => ?_, fun _ => trivial⟩, ⟨fun _ => ?_, fun h => ?_⟩, ⟨rfl, rfl, rfl⟩, rfl⟩
        · rw [ListOk, if_pos hhandle, hget]
          exact ⟨hhas, trivial⟩
        · simp [hownNone]
        · refine (h.2.2.1 ?_).elim
          rw [hget]
          trivial
  · next hhandle =>
    have hdying : ¬ ListDying env req := fun h => hhandle h.1
    split
    · next hnone =>
      have hnone : ¬ s.parser.boList.isSome = true := by simpa using hnone
      have hhas : ¬ Has chunkIdBoHandles req.chunks := fun h => hnone (hparser.mpr h)
      have hownNone : s.own.boList = none := by
        rw [← hown] at hhas
        simpa using hhas
      cases hempty : env.boListEmpty with
      | error e =>
        refine ⟨⟨nofun, ?_⟩, ⟨fun _ => rfl, fun h => (hdying h).elim⟩, ⟨rfl, rfl, rfl⟩, trivial⟩
        rw [ListOk, if_neg hhandle, hempty]
        exact fun h => h.elim hhas nofun
      | ok _ =>
        refine ⟨⟨fun _ => ?_, fun _ => trivial⟩, ⟨fun _ => ?_, fun h => (hdying h).elim⟩,
          ⟨rfl, rfl, rfl⟩, rfl⟩
        · rw [ListOk, if_neg hhandle, hempty]
          exact .inr trivial
        · simp [hownNone]
    · next hsome =>
      have hsome : s.parser.boList.isSome = true := by simpa [Option.isSome_iff_ne_none] using hsome
      refine ⟨⟨fun _ => ?_, fun _ => trivial⟩, ⟨fun _ => rfl, fun h => (hdying h).elim⟩,
        ⟨rfl, rfl, rfl⟩, trivial⟩
      rw [ListOk, if_neg hhandle]
      exact .inl (hparser.mp hsome)

theorem parserBosReserve_exact {env : Env} {p : Parser} :
    wp True (parserBosReserve env) (fun r p' => Quiet p p' ∧
      (IsOk r ↔ IsOk env.reserveAndValidate ∧ (p.ufRobj.isSome = true → IsOk env.allocGart))) p := by
  simp only [parserBosReserve, wp_bind, wp_gets]
  cases hlist : p.boList with
  | none => trivial
  | some list =>
    have hmn : wp True (parserMn env list) (fun r p' => r = .ok () ∧ ∃ m, p' = { p with mn := m }) p := by
      unfold parserMn
      rw [wp_ite]
      split
      · exact ⟨rfl, _, rfl⟩
      · exact ⟨rfl, p.mn, rfl⟩
    simp only [wp_deref_some]
    refine wp_mono hmn fun r p₁ hr => ?_
    obtain ⟨rfl, m, rfl⟩ := hr
    simp only [wp_outcome]
    cases hreserve : env.reserveAndValidate with
    | error e => exact ⟨⟨rfl, rfl, rfl, rfl, rfl⟩, nofun, fun h => h.1⟩
    | ok _ =>
      cases huf : p.ufRobj with
      | none =>
        simp only [wp_pure]
        exact ⟨⟨rfl, rfl, rfl, huf.symm, rfl⟩, fun _ => ⟨trivial, nofun⟩, fun _ => trivial⟩
      | some uf =>
        simp only [wp_bind, wp_gets]
        cases hjob : p.job with
        | none => trivial
        | some job =>
          simp only [wp_deref_some, wp_modify, wp_outcome]
          refine ⟨⟨rfl, rfl, ?_, huf.symm, rfl⟩, fun h => ⟨trivial, fun _ => h⟩, fun h => h.2 rfl⟩
          rw [hjob]
          rfl

/-- `gsgpu_cs_parser_bos`. -/
theorem csParserBos_balance
    (hown : s.own.boList.isSome = true ↔ Has chunkIdBoHandles req.chunks)
    (hparser : s.parser.boList.isSome = true ↔ Has chunkIdBoHandles req.chunks)
    (huf : s.parser.ufRobj.isSome = true ↔ Has chunkIdFence req.chunks) :
    wp True (csParserBos env req) (fun r s' => (IsOk r ↔ BosOk env.toEnv req) ∧
      Misses s s' (.handle req.boListHandle) (ListDying env req) ∧ SamePostDep s s') s := by
  rw [csParserBos, wp_bind]
  refine wp_mono (parserBoList_balance hown hparser) fun r t hr => ?_
  obtain ⟨hok, hmiss, hsame, hp⟩ := hr
  cases r with
  | error e => exact ⟨⟨nofun, fun h => hok.mpr h.list⟩, hmiss, hsame⟩
  | ok _ =>
    have htuf : t.parser.ufRobj.isSome = true ↔ Has chunkIdFence req.chunks := by
      rw [hp]
      exact huf
    have hlist := hok.mp trivial
    simp only [wp_zoom]
    refine wp_mono parserBosReserve_exact fun r p' hr => ?_
    obtain ⟨hquiet, hok'⟩ := hr
    refine ⟨?_, ?_, ⟨hsame.syncobjs, hsame.size, hsame.fence⟩⟩
    · rw [hok']
      exact ⟨fun h => ⟨hlist, h.1, fun hf => h.2 (htuf.mpr hf)⟩,
        fun h => ⟨h.reserve, fun hu => h.gart (htuf.mp hu)⟩⟩
    · rw [Misses, Quiet.extra hquiet]
      exact hmiss

end Bos

section Dependencies

variable {k i n : ℕ} {c : Chunk}

/-- The context, the ring and the fence that the `i`-th dependency of a chunk names. -/
structure FenceNamed (env : Env) (k : ℕ) (c : Chunk) (i : ℕ) (fence : Bool) : Prop where
  ctx : (env.depCtxGet k i (c.data (6 * i + 3))).isSome = true
  ring : IsOk (env.queueMgrMap k i (c.data (6 * i)) (c.data (6 * i + 1)) (c.data (6 * i + 2)))
  fence : env.ctxGetFence k i
    ((c.data (6 * i + 4 + 1)).toNat * 2 ^ 32 + (c.data (6 * i + 4)).toNat) = .ok fence

/-- The dependency is accepted. -/
def FenceDepOk (env : Env) (k : ℕ) (c : Chunk) (i : ℕ) : Prop :=
  FenceNamed env k c i false ∨ FenceNamed env k c i true ∧ IsOk (env.syncFence k i)

theorem fenceNamed_unique {env : Env} {b b' : Bool} (h : FenceNamed env k c i b)
    (h' : FenceNamed env k c i b') : b = b' :=
  Except.ok.inj (h.fence.symm.trans h'.fence)

/-- The loop gets to a dependency whose fence has been retired. -/
def LoopRetired (env : Env) (k : ℕ) (c : Chunk) (n i : ℕ) : Prop :=
  ∃ m < n, (∀ j < m, FenceDepOk env k c (i + j)) ∧ FenceNamed env k c (i + m) false

theorem fenceDeps_succ {env : Env} : (∀ m < n + 1, FenceDepOk env k c (i + m)) ↔
    FenceDepOk env k c i ∧ ∀ m < n, FenceDepOk env k c (i + 1 + m) := by
  simp only [Nat.forall_lt_succ_left, Nat.add_zero, Nat.add_right_comm i 1, Nat.add_assoc]

theorem loopRetired_succ {env : Env} : LoopRetired env k c (n + 1) i ↔
    FenceNamed env k c i false ∨ FenceDepOk env k c i ∧ LoopRetired env k c n (i + 1) := by
  constructor
  · rintro ⟨m, hm, hbefore, hnamed⟩
    cases m with
    | zero => exact .inl hnamed
    | succ m =>
      obtain ⟨hfirst, hrest⟩ := fenceDeps_succ.mp hbefore
      refine .inr ⟨hfirst, m, Nat.lt_of_succ_lt_succ hm, hrest, ?_⟩
      rwa [Nat.add_right_comm]
  · rintro (hnamed | ⟨hfirst, m, hm, hrest, hnamed⟩)
    · exact ⟨0, Nat.succ_pos n, fun j hj => absurd hj (Nat.not_lt_zero j), hnamed⟩
    · refine ⟨m + 1, Nat.succ_lt_succ hm, fenceDeps_succ.mpr ⟨hfirst, hrest⟩, ?_⟩
      rwa [Nat.add_right_comm] at hnamed

theorem addFenceDep_exact {env : Env} {p : Parser} (b : Bool) :
    wp True (Cs.addFenceDep env k i b) (fun r p' => p' = p ∧
      (IsOk r ↔ b = true → IsOk (env.syncFence k i))) p := by
  cases b with
  | false => exact ⟨rfl, fun _ => nofun, fun _ => trivial⟩
  | true =>
    simp only [Cs.addFenceDep, if_true, wp_bind, wp_gets]
    cases p.job with
    | none => trivial
    | some job =>
      simp only [wp_deref_some, wp_outcome]
      exact ⟨trivial, fun h _ => h, fun h => h trivial⟩

theorem fenceDepLoop_balance : wp True (fenceDepLoop env k c n i) (fun r s' =>
    s'.parser = s.parser ∧ s'.own = s.own ∧
    (IsOk r ↔ ∀ m < n, FenceDepOk env.toEnv k c (i + m)) ∧
    Loses s s' (LoopRetired env.toEnv k c n i)) s := by
  induction n generalizing i s with
  | zero =>
    refine ⟨rfl, rfl, ⟨fun _ _ h => absurd h (Nat.not_lt_zero _), fun _ => trivial⟩, .none rfl ?_⟩
    rintro ⟨m, hm, -⟩
    exact Nat.not_lt_zero m hm
  | succ n ih =>
    -- a dependency that is not accepted ends the loop
    have hfail : ∀ (e : Errno) (t : State), t.parser = s.parser → t.own = s.own → t.extra = s.extra →
        ¬ FenceNamed env.toEnv k c i false → ¬ FenceDepOk env.toEnv k c i →
        t.parser = s.parser ∧ t.own = s.own ∧
        (IsOk (.error e : Except Errno Unit) ↔ ∀ m < n + 1, FenceDepOk env.toEnv k c (i + m)) ∧
        Loses s t (LoopRetired env.toEnv k c (n + 1) i) := by
      intro e t hparser hown hextra hretired hnot
      refine ⟨hparser, hown, ⟨nofun, fun h => hnot (fenceDeps_succ.mp h).1⟩, .none hextra ?_⟩
      rw [loopRetired_succ]
      exact fun h => h.elim hretired fun h => hnot h.1
    -- one that is goes on
    have hnext : ∀ t : State, t.parser = s.parser → t.own = s.own → FenceDepOk env.toEnv k c i →
        Loses s t (FenceNamed env.toEnv k c i false) →
        wp True (fenceDepLoop env k c n (i + 1)) (fun r s' => s'.parser = s.parser ∧ s'.own = s.own ∧
          (IsOk r ↔ ∀ m < n + 1, FenceDepOk env.toEnv k c (i + m)) ∧
          Loses s s' (LoopRetired env.toEnv k c (n + 1) i)) t := by
      intro t hparser hown hok hloses
      refine wp_mono ih fun r s' hr => ?_
      obtain ⟨hparser', hown', hok', hloses'⟩ := hr
      refine ⟨hparser'.trans hparser, hown'.trans hown, ?_, (hloses.trans hloses').congr ?_⟩
      · rw [hok', fenceDeps_succ]
        exact ⟨fun h => ⟨hok, h⟩, fun h => h.2⟩
      · rw [loopRetired_succ]
        simp [hok]
    simp only [fenceDepLoop, wp_bind, wp_run_readWord]
    intro _
    cases hctx : env.depCtxGet k i (c.data (6 * i + 3)) with
    | none =>
      have hnot : ∀ b, ¬ FenceNamed env.toEnv k c i b := fun b h => by simpa [hctx] using h.ctx
      exact hfail _ _ rfl rfl rfl (hnot false) fun h => h.elim (hnot false) fun h => hnot true h.1
    | some ctx =>
      simp only [wp_bind, wp_take, wp_run_readWord, wp_onError, wp_outcome]
      intro _ _ _
      cases hring : env.queueMgrMap k i (c.data (6 * i)) (c.data (6 * i + 1)) (c.data (6 * i + 2)) with
      | error e =>
        have hnot : ∀ b, ¬ FenceNamed env.toEnv k c i b := fun b h => by simpa [hring, IsOk] using h.ring
        exact hfail _ _ rfl rfl (by simp [Pi.single_neg]) (hnot false)
          fun h => h.elim (hnot false) fun h => hnot true h.1
      | ok ring =>
        simp only [wp_run_readQword]
        intro _ _
        cases hfence : env.ctxGetFence k i
            ((c.data (6 * i + 4 + 1)).toNat * 2 ^ 32 + (c.data (6 * i + 4)).toNat) with
        | error e =>
          have hnot : ∀ b, ¬ FenceNamed env.toEnv k c i b := fun b h => by
            have := h.fence
            rw [hfence] at this
            cases this
          exact hfail _ _ rfl rfl (by simp [Pi.single_neg]) (hnot false)
            fun h => h.elim (hnot false) fun h => hnot true h.1
        | ok b =>
          have hnamed : FenceNamed env.toEnv k c i b := ⟨by simp [hctx], by simp [hring, IsOk], hfence⟩
          cases b with
          | false =>
            -- the context is not put
            simp only [addFenceDep, Bool.false_eq_true, if_false, wp_pure]
            refine hnext _ rfl rfl (.inl hnamed) ⟨_, extra_add _ _ _, ?_, fun h => ?_⟩
            · exact (Lost.single _ Int.one_nonneg).congr (by simp [hnamed])
            · exact Pi.single_eq_of_ne (by simp) 1
          | true =>
            have hpending : ¬ FenceNamed env.toEnv k c i false := fun h => by
              cases fenceNamed_unique h hnamed
            simp only [addFenceDep, if_true, wp_bind, wp_take, wp_ensuring, wp_zoom]
            refine wp_mono (addFenceDep_exact true) fun r p' hr => ?_
            obtain ⟨rfl, hsync⟩ := hr
            simp only [wp_put]
            cases r with
            | error e =>
              refine hfail _ _ rfl rfl ?_ hpending ?_
              · simp [Pi.single_neg]
              · rintro (h | h)
                · exact hpending h
                · exact hsync.mpr fun _ => h.2
            | ok _ =>
              refine hnext _ rfl rfl (.inr ⟨hnamed, hsync.mp trivial rfl⟩) (.none ?_ hpending)
              simp [Pi.single_neg]

theorem syncobjInLoop_balance : wp True (syncobjInLoop env k c n i) (fun r s' =>
    s'.parser = s.parser ∧ s'.own = s.own ∧ s'.extra = s.extra ∧
    (IsOk r ↔ ∀ m < n, IsOk (env.syncobjFindFence k (i + m) (c.data (i + m))) ∧
      IsOk (env.syncFence k (i + m)))) s := by
  induction n generalizing i s with
  | zero => exact ⟨rfl, rfl, rfl, fun _ _ h => absurd h (Nat.not_lt_zero _), fun _ => trivial⟩
  | succ n ih =>
    have hsucc : (∀ m < n + 1, IsOk (env.syncobjFindFence k (i + m) (c.data (i + m))) ∧
        IsOk (env.syncFence k (i + m))) ↔ (IsOk (env.syncobjFindFence k i (c.data i)) ∧
        IsOk (env.syncFence k i)) ∧ ∀ m < n, IsOk (env.syncobjFindFence k (i + 1 + m)
          (c.data (i + 1 + m))) ∧ IsOk (env.syncFence k (i + 1 + m)) := by
      simp only [Nat.forall_lt_succ_left, Nat.add_zero, Nat.add_right_comm i 1, Nat.add_assoc]
    simp only [syncobjInLoop, wp_bind, wp_run_readWord, wp_outcome, hsucc]
    intro _
    cases hfind : env.syncobjFindFence k i (c.data i) with
    | error e => exact ⟨trivial, trivial, trivial, nofun, fun h => h.1.1⟩
    | ok _ =>
      simp only [wp_take, wp_ensuring, wp_zoom, wp_put]
      refine wp_mono (addFenceDep_exact true) fun r p' hr => ?_
      obtain ⟨rfl, hsync⟩ := hr
      cases r with
      | error e =>
        exact ⟨rfl, rfl, by simp [Pi.single_neg], nofun, fun h => hsync.mpr fun _ => h.1.2⟩
      | ok _ =>
        refine wp_mono ih fun r s' hr => ?_
        obtain ⟨hparser, hown, hextra, hok⟩ := hr
        refine ⟨hparser, hown, hextra.trans (by simp [Pi.single_neg]), ?_⟩
        rw [hok]
        exact ⟨fun h => ⟨⟨trivial, hsync.mp trivial rfl⟩, h⟩, fun h => h.2⟩

/-- One more syncobj. -/
theorem extra_setOwn_syncobj (s : State) (id : ℕ) :
    (s.setOwn fun o => { o with postDepSyncobjs := o.postDepSyncobjs ++ [id] }).extra =
      s.extra - Pi.single (.syncobj id) 1 := by
  simp only [State.extra, State.held, State.setOwn, List.map_append, List.sum_append, List.map_cons,
    List.map_nil, List.sum_singleton]
  abel

theorem extra_setParser_numPostDep (s : State) (f : ℕ → ℕ) :
    (s.setParser fun p => { p with numPostDepSyncobjs := f p.numPostDepSyncobjs }).extra = s.extra :=
  rfl

theorem syncobjOutLoop_balance : wp True (syncobjOutLoop env k c n i) (fun r s' =>
    s'.extra = s.extra ∧ s'.own.postDepSize = s.own.postDepSize ∧ s'.own.fence = s.own.fence ∧
    (IsOk r → s'.own.postDepSyncobjs.length = s.own.postDepSyncobjs.length + n) ∧
    (IsOk r ↔ ∀ m < n, env.syncobjFind k (i + m) (c.data (i + m)) = true)) s := by
  induction n generalizing i s with
  | zero =>
    exact ⟨rfl, rfl, rfl, fun _ => rfl, fun _ _ h => absurd h (Nat.not_lt_zero _), fun _ => trivial⟩
  | succ n ih =>
    have hsucc : (∀ m < n + 1, env.syncobjFind k (i + m) (c.data (i + m)) = true) ↔
        env.syncobjFind k i (c.data i) = true ∧
          ∀ m < n, env.syncobjFind k (i + 1 + m) (c.data (i + 1 + m)) = true := by
      simp only [Nat.forall_lt_succ_left, Nat.add_zero, Nat.add_right_comm i 1, Nat.add_assoc]
    simp only [syncobjOutLoop, wp_bind, wp_run_readWord, wp_require, wp_take, wp_run_modify, wp_setOwn,
      hsucc]
    intro _
    refine ⟨fun hfind => ?_, fun hfind => ?_⟩
    · refine wp_mono ih fun r s' hr => ?_
      obtain ⟨hextra, hsize, hfence, hlength, hok⟩ := hr
      refine ⟨?_, hsize, hfence, fun h => ?_, ?_⟩
      · rw [hextra, extra_setOwn_syncobj, extra_setParser_numPostDep _ (· + 1), extra_add,
          add_sub_cancel_right]
      · rw [hlength h]
        simp
        omega
      · rw [hok]
        exact ⟨fun h => ⟨hfind, h⟩, fun h => h.2⟩
    · exact ⟨trivial, trivial, trivial, nofun, nofun, fun h => by simp [h.1] at hfind⟩

/-- The dependencies of a chunk are accepted. -/
def DepOk (env : Env) (k : ℕ) (c : Chunk) : Prop :=
  (c.chunkId = chunkIdDependencies → ∀ m < numDeps c 24, FenceDepOk env k c m) ∧
  (c.chunkId = chunkIdSyncobjIn → ∀ m < numDeps c 4,
    IsOk (env.syncobjFindFence k m (c.data m)) ∧ IsOk (env.syncFence k m)) ∧
  (c.chunkId = chunkIdSyncobjOut → env.postDepOk k = true ∧
    ∀ m < numDeps c 4, env.syncobjFind k m (c.data m) = true)

/-- The dependencies of a chunk lose references, with `n` syncobjs of an earlier chunk. -/
def DepLoses (env : Env) (k : ℕ) (c : Chunk) (n : ℕ) : Prop :=
  c.chunkId = chunkIdDependencies ∧ LoopRetired env k c (numDeps c 24) 0 ∨
    c.chunkId = chunkIdSyncobjOut ∧ n ≠ 0

/-- The syncobjs that the parser holds behind a chunk. -/
def outSyncobjs (n : ℕ) (c : Chunk) : ℕ := if c.chunkId = chunkIdSyncobjOut then numDeps c 4 else n

/-- What the dependencies leave. -/
structure DepPost (ok loses : Prop) (n : ℕ) (s : State) (r : Except Errno Unit) (s' : State) :
    Prop where
  ok : IsOk r ↔ ok
  lost : Loses s s' loses
  fence : s'.own.fence = s.own.fence
  syncobjs : IsOk r → s'.own.postDepSyncobjs.length = n ∧ s'.own.postDepSize = n

/-- The array of syncobjs is overwritten. -/
theorem extra_setOwn_postDep (s : State) (n : ℕ) :
    (s.setOwn fun o => { o with postDepSyncobjs := [], postDepSize := n }).extra =
      s.extra + ((s.own.postDepSyncobjs.map fun id => Pi.single (.syncobj id) 1).sum +
        Pi.single .memory (s.own.postDepSize : ℤ)) - Pi.single .memory (n : ℤ) := by
  simp only [State.extra, State.held, State.setOwn, List.map_nil, List.sum_nil]
  abel

theorem csDependency_balance {n : ℕ} (hlen : s.own.postDepSyncobjs.length = n)
    (hsize : s.own.postDepSize = n) :
    wp True (csDependency env k c)
      (DepPost (DepOk env.toEnv k c) (DepLoses env.toEnv k c n) (outSyncobjs n c) s) s := by
  simp only [csDependency, wp_ite]
  split
  · next hid =>
    have hin : c.chunkId ≠ chunkIdSyncobjIn := fun h => absurd (hid.symm.trans h) (by decide)
    have hout : c.chunkId ≠ chunkIdSyncobjOut := fun h => absurd (hid.symm.trans h) (by decide)
    refine wp_mono fenceDepLoop_balance fun r s' hr => ?_
    obtain ⟨-, hown, hok, hlost⟩ := hr
    simp only [Nat.zero_add] at hok
    refine ⟨?_, hlost.congr ?_, by rw [hown], fun _ => ?_⟩
    · rw [hok]
      exact ⟨fun h => ⟨fun _ => h, fun h' => (hin h').elim, fun h' => (hout h').elim⟩, fun h => h.1 hid⟩
    · exact ⟨fun h => .inl ⟨hid, h⟩, fun h => h.elim (·.2) fun h' => (hout h'.1).elim⟩
    · rw [hown, outSyncobjs, if_neg hout]
      exact ⟨hlen, hsize⟩
  · next hdep =>
    split
    · next hid =>
      have hout : c.chunkId ≠ chunkIdSyncobjOut := fun h => absurd (hid.symm.trans h) (by decide)
      refine wp_mono syncobjInLoop_balance fun r s' hr => ?_
      obtain ⟨-, hown, hextra, hok⟩ := hr
      simp only [Nat.zero_add] at hok
      refine ⟨?_, .none hextra ?_, by rw [hown], fun _ => ?_⟩
      · rw [hok]
        exact ⟨fun h => ⟨fun h' => (hdep h').elim, fun _ => h, fun h' => (hout h').elim⟩,
          fun h => h.2.1 hid⟩
      · exact fun h => h.elim (fun h' => hdep h'.1) fun h' => hout h'.1
      · rw [hown, outSyncobjs, if_neg hout]
        exact ⟨hlen, hsize⟩
    · next hin =>
      split
      · next hid =>
        have hlost : Lost ((s.own.postDepSyncobjs.map fun id => (Pi.single (.syncobj id) 1 : Obj → ℤ)).sum +
            Pi.single .memory (s.own.postDepSize : ℤ)) (DepLoses env.toEnv k c n) := by
          refine ((Lost.pointers _ _).add (Lost.single _ (Int.natCast_nonneg _))).congr ?_
          rw [hsize, ← List.length_pos_iff, hlen]
          refine ⟨fun h => .inr ⟨hid, by omega⟩, fun h => ?_⟩
          have := h.elim (fun h' => (hdep h'.1).elim) (·.2)
          omega
        have hzero : ∀ h, ((s.own.postDepSyncobjs.map fun id => Pi.single (.syncobj id) 1).sum +
            Pi.single .memory (s.own.postDepSize : ℤ) : Obj → ℤ) (.boList (.handle h)) = 0 := by
          intro h
          rw [Pi.add_apply, pointers_apply_of_ne (by simp), Pi.single_eq_of_ne (by simp), add_zero]
        simp only [allocPostDep, wp_bind, wp_take, wp_setOwn, wp_run_modify, wp_require]
        generalize ht : State.setParser _ (fun p => { p with numPostDepSyncobjs := 0 }) = t
        have hloses : Loses s t (DepLoses env.toEnv k c n) := by
          refine ⟨_, ?_, hlost, hzero⟩
          rw [← ht, extra_setParser_numPostDep _ (fun _ => 0), extra_setOwn_postDep, extra_add, own_add]
          abel
        have hown : t.own = { s.own with
            postDepSyncobjs := []
            postDepSize := if env.postDepOk k then numDeps c 4 else 0 } := by
          rw [← ht]
          rfl
        refine ⟨fun halloc => ?_, fun halloc => ?_⟩
        · refine wp_mono syncobjOutLoop_balance fun r s' hr => ?_
          obtain ⟨hextra, hsize', hfence, hlength, hok⟩ := hr
          simp only [Nat.zero_add] at hok
          refine ⟨?_, ?_, by rw [hfence, hown], fun h => ?_⟩
          · rw [hok]
            exact ⟨fun h => ⟨fun h' => (hdep h').elim, fun h' => (hin h').elim, fun _ => ⟨halloc, h⟩⟩,
              fun h => (h.2.2 hid).2⟩
          · obtain ⟨lost, hlost⟩ := hloses
            exact ⟨lost, hextra ▸ hlost⟩
          · rw [hlength h, hsize', hown, outSyncobjs, if_pos hid]
            simp [halloc]
        · refine ⟨⟨False.elim, fun h => ?_⟩, hloses, by rw [hown], False.elim⟩
          simp [(h.2.2 hid).1] at halloc
      · next hout =>
        refine ⟨⟨fun _ => ?_, fun _ => trivial⟩, .none rfl ?_, rfl, fun _ => ?_⟩
        · exact ⟨fun h => (hdep h).elim, fun h => (hin h).elim, fun h => (hout h).elim⟩
        · exact fun h => h.elim (fun h' => hdep h'.1) fun h' => hout h'.1
        · rw [outSyncobjs, if_neg hout]
          exact ⟨hlen, hsize⟩

/-- The dependencies of all chunks are accepted, from the `k`-th on. -/
def DepsOk (env : Env) : ℕ → List Chunk → Prop
  | _, [] => True
  | k, c :: cs => DepOk env k c ∧ DepsOk env (k + 1) cs

/-- One of the chunks loses references, while those before it are accepted. -/
def DepsLose (env : Env) : ℕ → List Chunk → ℕ → Prop
  | _, [], _ => False
  | k, c :: cs, n => DepLoses env k c n ∨ DepOk env k c ∧ DepsLose env (k + 1) cs (outSyncobjs n c)

theorem csDependencies_balance (cs : List Chunk) {n : ℕ} (hlen : s.own.postDepSyncobjs.length = n)
    (hsize : s.own.postDepSize = n) :
    wp True (csDependencies env k cs)
      (DepPost (DepsOk env.toEnv k cs) (DepsLose env.toEnv k cs n) (cs.foldl outSyncobjs n) s) s := by
  induction cs generalizing k n s with
  | nil => exact ⟨⟨fun _ => trivial, fun _ => trivial⟩, .none rfl nofun, rfl, fun _ => ⟨hlen, hsize⟩⟩
  | cons c cs ih =>
    rw [csDependencies, wp_bind]
    refine wp_mono (csDependency_balance hlen hsize) fun r t hr => ?_
    cases r with
    | error e =>
      have hnot : ¬ DepOk env.toEnv k c := fun h => hr.ok.mpr h
      refine ⟨⟨nofun, fun h => hnot h.1⟩, hr.lost.congr ?_, hr.fence, nofun⟩
      simp [DepsLose, hnot]
    | ok _ =>
      have hok := hr.ok.mp trivial
      obtain ⟨hlen', hsize'⟩ := hr.syncobjs trivial
      refine wp_mono (ih hlen' hsize') fun r s' hr' => ?_
      refine ⟨?_, (hr.lost.trans hr'.lost).congr ?_, hr'.fence.trans hr.fence, hr'.syncobjs⟩
      · rw [hr'.ok]
        exact ⟨fun h => ⟨hok, h⟩, fun h => h.2⟩
      · simp [DepsLose, hok]

end Dependencies

section Submit

/-- What a pushed job keeps: itself, and its finished fence for it, for the ring of the context, for
each buffer and for each syncobj. -/
def handed (env : RefEnv) (syncobjs : ℕ) : Except Errno Job → Obj → ℤ
  | .error _ => 0
  | .ok _ => Pi.single .job 1 + Pi.single .fence (1 + 1 + env.numValidated + syncobjs : ℤ)

theorem extra_setOwn_fence (s : State) (hfence : s.own.fence = false) :
    (s.setOwn fun o => { o with fence := true }).extra = s.extra - Pi.single .fence 1 := by
  simp only [State.extra, State.held, State.setOwn, hfence, Bool.toNat_true, Bool.toNat_false,
    Nat.cast_one, Nat.cast_zero, Pi.single_zero]
  abel

theorem extra_takeJob (hjob : s.parser.job.isSome = true) :
    (s.setParser fun p => { p with job := none }).extra = s.extra + Pi.single .job 1 := by
  simp only [State.extra, State.held, State.setParser, hjob, Option.isSome_none, Bool.toNat_true,
    Bool.toNat_false, Nat.cast_one, Nat.cast_zero, Pi.single_zero]
  abel

/-- A computation that only reads the parser. -/
theorem userptrPages_exact {env : Env} {p : Parser} :
    wp True (userptrPages env) (fun _ p' => p' = p) p := by
  simp only [userptrPages, wp_bind, wp_gets]
  cases p.boList with
  | none => trivial
  | some list => simp

theorem csSubmit_balance (hfence : s.own.fence = false) (hjob : s.parser.job.isSome = true) :
    wp True (csSubmit env) (fun r s' =>
      s'.extra = s.extra + handed env s.own.postDepSyncobjs.length r) s := by
  obtain ⟨job, hjob'⟩ := Option.isSome_iff_exists.mp hjob
  have htake : wp True (run takeJob) (fun r t => r = .ok job ∧
      t = s.setParser fun p => { p with job := none }) s := by
    simp only [wp_zoom, takeJob, wp_bind, wp_gets, wp_modify]
    exact wp_deref_of hjob' ⟨rfl, rfl⟩
  simp only [csSubmit, wp_bind, wp_run_gets, wp_run_deref]
  intro ring _ ctx _
  refine wp_mono htake fun r t hr => ?_
  obtain ⟨rfl, ht⟩ := hr
  have hextra : t.extra = s.extra + Pi.single .job 1 := by rw [ht, extra_takeJob hjob]
  have hown : t.own = s.own := by rw [ht, own_setParser]
  simp only [wp_onError, wp_outcome]
  split
  · rw [extra_add, hextra, Pi.single_neg, handed, add_neg_cancel_right, add_zero]
  · simp only [wp_take]
    have hlock : ∀ (m : MnPtr) {Q : Except Errno Unit → State → Prop} {u : State}, Q (.ok ()) u →
        wp True (run (mnLock m)) Q u := by
      intro m Q u hQ
      cases m with
      | errPtr => trivial
      | null => exact hQ
      | mn => exact hQ
    refine hlock _ ?_
    simp only [wp_zoom]
    refine wp_mono userptrPages_exact fun r p' hp' => ?_
    obtain rfl := hp'
    cases r with
    | error e =>
      simp only [set_get, extra_add, hextra, Pi.single_neg, handed]
      abel
    | ok _ =>
      simp only [set_get, wp_take, wp_setOwn, ctxAddFence, env.ctxAddFence_eq, wp_bind, wp_outcome,
        wp_pure, csPostDependencies, wp_gets]
      rw [extra_add, extra_add, extra_add, extra_setOwn_fence _ (by rw [own_add, own_add, hown, hfence]),
        extra_add, extra_add, hextra]
      simp only [own_add, own_setOwn, hown, handed, Pi.single_add]
      abel

end Submit

/-- A user fence is looked up while the parser holds one of an earlier chunk. -/
def RepeatedFence (env : Env) (req : Request) : Prop :=
  InitReached env req ∧ ∃ pre c post, req.chunks = pre ++ c :: post ∧ ChunksOk env 0 pre ∧
    Has chunkIdFence pre ∧ FenceFound env pre.length c

/-- A list is created while the parser holds one of an earlier chunk. -/
def RepeatedBoHandles (env : Env) (req : Request) : Prop :=
  InitReached env req ∧ ∃ pre c post, req.chunks = pre ++ c :: post ∧ ChunksOk env 0 pre ∧
    Has chunkIdBoHandles pre ∧ c.chunkId = chunkIdBoHandles ∧ ChunkOk env pre.length c

/-- The list of the handle is on its way out. -/
def DyingBoList (env : RefEnv) (req : Request) : Prop :=
  InitOk env.toEnv req ∧ FillOk env.toEnv req ∧ ListDying env req

/-- The ioctl gets to the dependencies. -/
structure DependenciesReached (env : Env) (req : Request) : Prop where
  init : InitOk env req
  fill : FillOk env req
  bos : BosOk env req

/-- A dependency on a fence that has been retired. -/
def RetiredDependency (env : Env) (req : Request) : Prop :=
  DependenciesReached env req ∧ ∃ pre c post, req.chunks = pre ++ c :: post ∧ DepsOk env 0 pre ∧
    c.chunkId = chunkIdDependencies ∧ LoopRetired env pre.length c (numDeps c 24) 0

/-- Syncobjs are looked up while the parser holds some of an earlier chunk. -/
def RepeatedSyncobjOut (env : Env) (req : Request) : Prop :=
  DependenciesReached env req ∧ ∃ pre c post, req.chunks = pre ++ c :: post ∧ DepsOk env 0 pre ∧
    c.chunkId = chunkIdSyncobjOut ∧ pre.foldl outSyncobjs 0 ≠ 0

/-- The requests that lose a reference or give one back that they did not take. -/
def Unbalanced (env : RefEnv) (req : Request) : Prop :=
  RepeatedFence env.toEnv req ∨ RepeatedBoHandles env.toEnv req ∨ DyingBoList env req ∨
    RetiredDependency env.toEnv req ∨ RepeatedSyncobjOut env.toEnv req

theorem loopOverwrites_iff {env : Env} {i : ℕ} {cs : List Chunk} {uf list : Prop} :
    LoopOverwrites env i cs uf list ↔ ∃ pre c post, cs = pre ++ c :: post ∧ ChunksOk env i pre ∧
      Overwrites env (i + pre.length) c (uf ∨ Has chunkIdFence pre)
        (list ∨ Has chunkIdBoHandles pre) := by
  induction cs generalizing i uf list with
  | nil => simp [LoopOverwrites]
  | cons c cs ih =>
    rw [LoopOverwrites, ih]
    constructor
    · rintro (h | ⟨hok, pre, d, post, rfl, hpre, hd⟩)
      · exact ⟨[], c, cs, rfl, trivial, by simpa [Has] using h⟩
      · refine ⟨c :: pre, d, post, rfl, ⟨hok, hpre⟩, ?_⟩
        rw [has_cons, has_cons, ← or_assoc, ← or_assoc, List.length_cons]
        rwa [Nat.add_right_comm] at hd
    · rintro ⟨pre, d, post, heq, hpre, hd⟩
      cases pre with
      | nil =>
        obtain ⟨rfl, rfl⟩ := List.cons.inj heq
        exact .inl (by simpa [Has] using hd)
      | cons c' pre =>
        obtain ⟨rfl, rfl⟩ := List.cons.inj heq
        refine .inr ⟨hpre.1, pre, d, post, rfl, hpre.2, ?_⟩
        rw [has_cons, has_cons, ← or_assoc, ← or_assoc, List.length_cons] at hd
        rwa [Nat.add_right_comm]

theorem depsLose_iff {env : Env} {k n : ℕ} {cs : List Chunk} :
    DepsLose env k cs n ↔ ∃ pre c post, cs = pre ++ c :: post ∧ DepsOk env k pre ∧
      DepLoses env (k + pre.length) c (pre.foldl outSyncobjs n) := by
  induction cs generalizing k n with
  | nil => simp [DepsLose]
  | cons c cs ih =>
    rw [DepsLose, ih]
    constructor
    · rintro (h | ⟨hok, pre, d, post, rfl, hpre, hd⟩)
      · exact ⟨[], c, cs, rfl, trivial, h⟩
      · refine ⟨c :: pre, d, post, rfl, ⟨hok, hpre⟩, ?_⟩
        rwa [Nat.add_right_comm] at hd
    · rintro ⟨pre, d, post, heq, hpre, hd⟩
      cases pre with
      | nil =>
        obtain ⟨rfl, rfl⟩ := List.cons.inj heq
        exact .inl hd
      | cons c' pre =>
        obtain ⟨rfl, rfl⟩ := List.cons.inj heq
        refine .inr ⟨hpre.1, pre, d, post, rfl, hpre.2, ?_⟩
        rwa [Nat.add_right_comm]

theorem unbalanced_iff : Unbalanced env req ↔
    InitReached env.toEnv req ∧ LoopOverwrites env.toEnv 0 req.chunks False False ∨
      InitOk env.toEnv req ∧ FillOk env.toEnv req ∧
        (ListDying env req ∨ BosOk env.toEnv req ∧ DepsLose env.toEnv 0 req.chunks 0) := by
  rw [loopOverwrites_iff, depsLose_iff]
  simp only [Nat.zero_add, false_or]
  constructor
  · rintro (⟨hr, pre, c, post, heq, hpre, hhas, hfound⟩ |
      ⟨hr, pre, c, post, heq, hpre, hhas, hid, hok⟩ | ⟨hi, hf, hd⟩ |
      ⟨hr, pre, c, post, heq, hpre, hid, hret⟩ | ⟨hr, pre, c, post, heq, hpre, hid, hn⟩)
    · exact .inl ⟨hr, pre, c, post, heq, hpre, .inl ⟨hhas, hfound⟩⟩
    · exact .inl ⟨hr, pre, c, post, heq, hpre, .inr ⟨hhas, hid, hok⟩⟩
    · exact .inr ⟨hi, hf, .inl hd⟩
    · exact .inr ⟨hr.init, hr.fill, .inr ⟨hr.bos, pre, c, post, heq, hpre, .inl ⟨hid, hret⟩⟩⟩
    · exact .inr ⟨hr.init, hr.fill, .inr ⟨hr.bos, pre, c, post, heq, hpre, .inr ⟨hid, hn⟩⟩⟩
  · rintro (⟨hr, pre, c, post, heq, hpre, ⟨hhas, hfound⟩ | ⟨hhas, hid, hok⟩⟩ | ⟨hi, hf, hd | ⟨hb, pre, c,
      post, heq, hpre, ⟨hid, hret⟩ | ⟨hid, hn⟩⟩⟩)
    · exact .inl ⟨hr, pre, c, post, heq, hpre, hhas, hfound⟩
    · exact .inr (.inl ⟨hr, pre, c, post, heq, hpre, hhas, hid, hok⟩)
    · exact .inr (.inr (.inl ⟨hi, hf, hd⟩))
    · exact .inr (.inr (.inr (.inl ⟨⟨hi, hf, hb⟩, pre, c, post, heq, hpre, hid, hret⟩)))
    · exact .inr (.inr (.inr (.inr ⟨⟨hi, hf, hb⟩, pre, c, post, heq, hpre, hid, hn⟩)))

section Ioctl

variable {refs : Obj → ℤ}

/-- What is lost decides whether the account comes out even. -/
theorem even_iff {extra lost h : Obj → ℤ} {P : Prop} (hextra : extra = refs + lost + h)
    (hlost : Lost lost P) : extra = refs + h ↔ ¬ P := by
  rw [← hlost.eq_zero, hextra, add_assoc]
  constructor
  · intro heq
    exact (add_eq_right.mp (add_left_cancel heq))
  · intro hzero
    rw [hzero, zero_add]

theorem start_extra (refs : Obj → ℤ) : (State.start refs).extra = refs := by
  simp [State.extra, State.held, State.start, Owned.zero, Parser.zero]

theorem traceCs_exact {p : Parser} : wp True traceCs (fun _ p' => p' = p) p := by
  simp only [traceCs, wp_bind, wp_gets]
  cases p.job with
  | none => trivial
  | some job =>
    simp only [wp_deref_some, wp_ite, wp_bind, wp_gets, wp_pure]
    split
    · cases p.ring with
      | none => trivial
      | some ring => rfl
    · trivial

theorem csIbVmChunk_exact {env : Env} {p : Parser} :
    wp True (csIbVmChunk env) (fun _ p' => p' = p) p := by
  simp only [csIbVmChunk, wp_bind, wp_gets]
  cases p.job with
  | none => trivial
  | some job =>
    simp only [wp_deref_some, wp_outcome]
    split
    · trivial
    · split <;> trivial

theorem csParserFini_balance : wp True csParserFini (fun _ s' => s'.refs = s.extra) s := by
  have hchunks : wp True Cs.csParserFini (fun r p' => r = .ok () ∧ p' = s.parser) s.parser := by
    simp only [Cs.csParserFini, parserChunks, wp_bind, wp_gets, wp_ite, wp_pure]
    split
    · exact ⟨trivial, trivial⟩
    · cases s.parser.chunks with
      | none => trivial
      | some cs => exact ⟨trivial, rfl⟩
  simp only [csParserFini, wp_bind, wp_zoom]
  refine wp_mono hchunks fun r p' hr => ?_
  obtain ⟨rfl, rfl⟩ := hr
  rfl

/-- The passes from the dependencies on. -/
theorem submitPasses_balance (h : Listed env.toEnv req s.parser)
    (hown : s.own.postDepSyncobjs = [] ∧ s.own.postDepSize = 0 ∧ s.own.fence = false) :
    wp True (do
      let chunks ← run parserChunks
      csDependencies env 0 chunks
      run traceCs
      run (csIbVmChunk env.toEnv)
      csSubmit env) (fun r s' => ∃ lost, s'.extra = s.extra + lost +
        handed env (req.chunks.foldl outSyncobjs 0) r ∧
        Lost lost (DepsLose env.toEnv 0 req.chunks 0)) s := by
  obtain ⟨job, hjob, -⟩ := h.job
  have hchunks : ∀ {Q : Except Errno (List Chunk) → State → Prop}, Q (.ok req.chunks) s →
      wp True (run parserChunks) Q s := by
    intro Q hQ
    rw [run, wp_zoom, show parserOf.get s = s.parser from rfl, wp_parserChunks h.toParsed]
    exact hQ
  rw [wp_bind]
  refine hchunks ?_
  simp only [wp_bind]
  have hdeps := wp_and (csDependencies_balance (k := 0) (n := 0) req.chunks
    (by rw [hown.1]; rfl) hown.2.1)
    ((csDependencies_shows env req.chunks 0).wp (csDependencies_spec (F := True) env.toEnv 0 req.chunks hjob))
  refine wp_mono hdeps fun r t hr => ?_
  obtain ⟨hdep, m, hparser⟩ := hr
  obtain ⟨lost, hextra, hlost, -⟩ := hdep.lost
  have herror : ∀ e : Errno, ∃ lost, t.extra = s.extra + lost +
      handed env (req.chunks.foldl outSyncobjs 0) (.error e) ∧
      Lost lost (DepsLose env.toEnv 0 req.chunks 0) := fun e =>
    ⟨lost, by rw [hextra, handed, add_zero], hlost⟩
  cases r with
  | error e => exact herror e
  | ok _ =>
    simp only [wp_zoom]
    refine wp_mono traceCs_exact fun r p' hp' => ?_
    obtain rfl := hp'
    cases r with
    | error e => exact herror e
    | ok _ =>
      refine wp_mono csIbVmChunk_exact fun r p' hp' => ?_
      obtain rfl := hp'
      cases r with
      | error e => exact herror e
      | ok _ =>
        have htjob : t.parser.job.isSome = true := by
          have : t.parser = { s.parser with numPostDepSyncobjs := m } := hparser
          rw [this, hjob]
          rfl
        refine wp_mono (csSubmit_balance (hdep.fence.trans hown.2.2) htjob) fun r s' hs' => ?_
        refine ⟨lost, ?_, hlost⟩
        have hs' : s'.extra = t.extra + handed env t.own.postDepSyncobjs.length r := hs'
        rw [hs', (hdep.syncobjs trivial).1, hextra]

/-- The passes from the buffers on. -/
theorem laterPasses_balance (h : Filled env.toEnv req s.parser)
    (hlist : s.own.boList.isSome = true ↔ Has chunkIdBoHandles req.chunks)
    (hlist' : s.parser.boList.isSome = true ↔ Has chunkIdBoHandles req.chunks)
    (huf : s.parser.ufRobj.isSome = true ↔ Has chunkIdFence req.chunks)
    (hown : s.own.postDepSyncobjs = [] ∧ s.own.postDepSize = 0 ∧ s.own.fence = false) :
    wp True (do
      csParserBos env req
      let chunks ← run parserChunks
      csDependencies env 0 chunks
      run traceCs
      run (csIbVmChunk env.toEnv)
      csSubmit env) (fun r s' =>
        (ListDying env req → ¬ IsOk r ∧
          s'.extra = s.extra - Pi.single (.boList (.handle req.boListHandle)) 1) ∧
        (¬ ListDying env req → ∃ lost, s'.extra = s.extra + lost +
          handed env (req.chunks.foldl outSyncobjs 0) r ∧
          Lost lost (BosOk env.toEnv req ∧ DepsLose env.toEnv 0 req.chunks 0))) s := by
  rw [wp_bind]
  refine wp_mono (wp_and (csParserBos_balance hlist hlist' huf)
    ((csParserBos_shows env req).wp (csParserBos_spec (F := True) env.toEnv h))) fun r t hr => ?_
  obtain ⟨⟨hok, hmiss, hsame⟩, -, hlisted⟩ := hr
  cases r with
  | error e =>
    refine ⟨fun hdying => ⟨nofun, hmiss.2 hdying⟩, fun hdying => ⟨0, ?_, .none fun h => hok.mpr h.1⟩⟩
    rw [hmiss.1 hdying, handed, add_zero, add_zero]
  | ok _ =>
    have hbos := hok.mp trivial
    have hdying : ¬ ListDying env req := by
      intro hd
      have hlist := hbos.list
      rw [ListOk, if_pos hd.1] at hlist
      exact hd.2.2.1 hlist.2
    refine wp_mono (submitPasses_balance (hlisted rfl)
      ⟨hsame.syncobjs.trans hown.1, hsame.size.trans hown.2.1, hsame.fence.trans hown.2.2⟩)
      fun r s' hr => ⟨fun hd => (hdying hd).elim, fun _ => ?_⟩
    obtain ⟨lost, hextra, hlost⟩ := hr
    exact ⟨lost, by rw [hextra, hmiss.1 hdying], hlost.congr (by simp [hbos])⟩

/-- The account behind the passes. -/
theorem csPasses_balance (haccel : env.accelWorking = true) (hne : req.chunks ≠ []) :
    wp True (csPasses env req) (fun r s' =>
      s'.extra = refs + handed env (req.chunks.foldl outSyncobjs 0) r ↔ ¬ Unbalanced env req)
      (.start refs) := by
  rw [unbalanced_iff, csPasses, wp_bind]
  have hinit := wp_and (csParserInit_balance refs haccel hne) ((csParserInit_shows env req).wp
    (csParserInit_spec (F := True) env.toEnv req hne (fun h => absurd trivial h)
      (fun h => absurd trivial h)))
  refine wp_mono hinit fun r s₁ hr => ?_
  obtain ⟨hpost, hspec⟩ := hr
  obtain ⟨lost, hextra, hlost, hzero⟩ := hpost.lost
  rw [start_extra] at hextra
  cases r with
  | error e =>
    have hnot : ¬ InitOk env.toEnv req := fun h => hpost.ok.mpr h
    exact even_iff (by rw [hextra, handed, add_zero]) (hlost.congr (by simp [hnot]))
  | ok _ =>
    have hinitOk := hpost.ok.mp trivial
    simp only [wp_bind (run (csIbFill env.toEnv)), wp_zoom]
    refine wp_mono (wp_and (csIbFill_exact hspec) (csIbFill_spec (F := True) env.toEnv hspec
      fun h => absurd trivial h)) fun r p₂ hr => ?_
    obtain ⟨⟨hquiet, hfill⟩, -, hfilled⟩ := hr
    have hextra₂ : (parserOf.set p₂ s₁).extra = refs + lost := (Quiet.extra hquiet).trans hextra
    cases r with
    | error e =>
      have hnot : ¬ FillOk env.toEnv req := fun h => hfill.mpr h
      exact even_iff (by rw [hextra₂, handed, add_zero]) (hlost.congr (by simp [hnot]))
    | ok _ =>
      have hfillOk := hfill.mp trivial
      have hboList := hpost.boList trivial
      have huf := hpost.uf trivial
      refine wp_mono (laterPasses_balance (hfilled rfl) hboList.1 (by rw [parser_set, hquiet.boList]; exact hboList.2)
        (by rw [parser_set, hquiet.ufRobj]; exact huf) hpost.own) fun r s' hr => ?_
      by_cases hdying : ListDying env req
      · -- a reference is given back that was not taken
        obtain ⟨hr, hextra'⟩ := hr.1 hdying
        refine iff_of_false ?_ fun h => h (.inr ⟨hinitOk, hfillOk, .inl hdying⟩)
        cases r with
        | ok _ => exact (hr trivial).elim
        | error e =>
          intro heq
          have := congrFun (hextra'.symm.trans heq) (.boList (.handle req.boListHandle))
          rw [hextra₂] at this
          simp [handed, hzero] at this
      · obtain ⟨lost', hextra', hlost'⟩ := hr.2 hdying
        refine even_iff (by rw [hextra', hextra₂, add_assoc refs]) ((hlost.add hlost').congr ?_)
        simp [hinitOk, hfillOk, hdying]

/-- For every request, whatever the functions that the ioctl calls answer, the ioctl leaves the
reference counts, the lock of the context and the memory as they were, less what it hands to a
pushed job, if and only if the request is not one of the unbalanced ones. -/
theorem csIoctl_balanced_iff (env : RefEnv) (req : Request) (refs : Obj → ℤ) {r : Except Errno Job}
    (hrun : csIoctl env req (.start refs) = .ok (r, s')) :
    s'.refs = refs + handed env (req.chunks.foldl outSyncobjs 0) r ↔ ¬ Unbalanced env req := by
  refine of_wp (Q := fun r s' => s'.refs = refs + handed env (req.chunks.foldl outSyncobjs 0) r ↔
    ¬ Unbalanced env req) ?_ hrun
  rw [csIoctl, wp_ite]
  split
  · next haccel =>
    rw [wp_ensuring]
    by_cases hne : req.chunks = []
    · -- without chunks there is no ring to wait for
      have hfault : csPasses env req (.start refs) = .error .ring := by
        simp only [csPasses, csParserInit, hne, List.length_nil, if_true]
        rfl
      unfold wp
      rw [hfault]
      trivial
    · refine wp_mono (csPasses_balance haccel hne) fun r t ht => ?_
      refine wp_mono csParserFini_balance fun _ s' hs' => ?_
      rw [hs']
      exact ht
  · next haccel =>
    have hnot : ¬ Unbalanced env req := by
      rw [unbalanced_iff]
      exact fun h => haccel (h.elim (·.1.accel) (·.1.accel))
    simp [State.start, handed, hnot]

end Ioctl

/-- An environment in which everything is there; fences that are asked for are pending or have been
retired. -/
def willingEnv (pending : Bool) : RefEnv :=
  { obligingEnv true true with
    ctxGetFence := fun _ _ _ => .ok pending
    boId := fun _ handle => handle.toNat
    syncobjId := fun _ _ handle => handle.toNat
    boListDying := false
    numValidated := 1
    seq := 1
    ctxAddFence_eq := rfl }

/-- One IB of context 1, that depends on an earlier submission of that context. -/
def dependentRequest : Request :=
  ⟨1, 0, [⟨chunkIdIb, 8, fun _ => 0⟩, ⟨chunkIdDependencies, 6, fun i => if i = 3 then 1 else 0⟩]⟩

/-- The ioctl accepts the dependency on a retired submission, and the context keeps a reference. -/
theorem csIoctl_keeps_retired_ctx : ∃ job s',
    csIoctl (willingEnv false) dependentRequest (.start 0) = .ok (.ok job, s') ∧
      s'.refs (.ctx 1) = 1 ∧ s'.refs ≠ 0 + handed (willingEnv false) 0 (.ok job) := by
  refine ⟨_, _, rfl, rfl, ?_⟩
  intro h
  have := congrFun h (.ctx 1)
  revert this
  decide

/-- A dependency on a pending submission. -/
theorem csIoctl_balanced_iff_pending : ∃ job s',
    csIoctl (willingEnv true) dependentRequest (.start 0) = .ok (.ok job, s') ∧
      (s'.refs = 0 + handed (willingEnv true) (dependentRequest.chunks.foldl outSyncobjs 0) (.ok job) ↔
        ¬ Unbalanced (willingEnv true) dependentRequest) := by
  have haccepts : ∃ job s', csIoctl (willingEnv true) dependentRequest (.start 0) =
      .ok (.ok job, s') := ⟨_, _, rfl⟩
  obtain ⟨job, s', hrun⟩ := haccepts
  exact ⟨job, s', hrun, csIoctl_balanced_iff (willingEnv true) dependentRequest 0 hrun⟩

end Gsgpu.Cs.References
