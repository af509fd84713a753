import Gsgpu.Cs.Passes

/-! When the command submission ioctl is total: which requests it can be given without ever
following an absent pointer or reading a chunk word that user space did not supply. -/
namespace Gsgpu.Cs

open Prog

/-- The request is safe whatever the functions the ioctl calls answer. -/
theorem csIoctl_safe (env : Env) {req : Request} (hreq : RequestOk req)
    (hok : env.chunksOk = true) (hmn : env.mnOk = true ∨ ¬ MayList req) :
    Safe (csIoctl env req) Parser.zero := by
  unfold Safe csIoctl
  rw [wp_ite]
  split
  · rw [wp_ensuring]
    refine wp_mono (csPasses_spec env hreq.nonempty (fun _ => hreq) (fun _ => hok) fun _ => hmn)
      fun r p hr => ?_
    exact csParserFini_spec hr.1
  · trivial

/-- An environment in which everything the ioctl asks for is there: every handle names a buffer
of one page, every listed buffer is a userptr BO, and no allocation fails but those given. -/
def obligingEnv (chunksOk mnOk : Bool) : Env where
  accelWorking := true
  chunkArrayOk := true
  ctxGet _ := some ⟨false, 0⟩
  copyChunkArray := true
  chunksOk := chunksOk
  copyChunk _ := true
  kdataOk _ := true
  copyData _ := true
  gemObjectLookup _ _ := some ⟨pageSize, false, 0⟩
  createListEntryArray _ _ _ _ := .ok ()
  boListUserptrs _ boNumber := .ok boNumber.toNat
  jobOk := true
  vramLostCounter := 0
  queueMgrMap _ _ _ _ _ := .ok ⟨0, .gfx⟩
  ibGet _ := .ok ()
  ctxWaitPrevFence _ := .ok ()
  boListGet _ := .ok ⟨1, 0⟩
  boListEmpty := .ok ()
  mnOk := mnOk
  reserveAndValidate := .ok ()
  allocGart := .ok ()
  depCtxGet _ _ _ := some ⟨false, 0⟩
  ctxGetFence _ _ _ := .ok true
  syncFence _ _ := .ok ()
  syncobjFindFence _ _ _ := .ok ()
  postDepOk _ := true
  syncobjFind _ _ _ := true
  boVmUpdatePte := .ok ()
  reserveShared := .ok ()
  syncRings := .ok ()
  schedJobInit := .ok ()
  userptrNeedsPages := false
  ctxAddFence := .ok 1

section Obliging
variable {chunksOk mnOk : Bool} {c : Chunk} {cs : List Chunk} {p : Parser} {req : Request}

theorem parserInitChunk_ok (hr : c.Readable) (ha : c.Acceptable) (i numIbs : ℕ) (uf : UInt32) :
    wp False (parserInitChunk (obligingEnv chunksOk mnOk) i c numIbs uf)
      (fun r _ => ∃ x, r = .ok x) p := by
  unfold parserInitChunk
  simp only [wp_bind, wp_require, wp_ite, wp_pure, wp_fail]
  refine ⟨fun _ => ⟨fun _ => ⟨fun _ => ?_, fun h => ?_⟩, fun h => ?_⟩, fun h => ?_⟩
  · split
    · exact ⟨_, rfl⟩
    · split
      · next hf =>
        obtain ⟨hlen, hend⟩ := ha.2.1 hf
        have hwords := hr.1 hf hlen
        have h0 : 0 < c.copiedDw := by omega
        have h1 : 1 < c.copiedDw := by omega
        rw [if_neg (by omega)]
        simp [csUserFenceChunk, obligingEnv, wp_ite, h0, h1, hend, Nat.not_le.mpr]
      · split
        · next hb =>
          have hlen := ha.2.2 hb
          have hwords := hr.2 hb hlen
          rw [if_neg (by omega)]
          unfold csBoHandlesChunk
          simp only [wp_bind]
          exact wp_readQword_of (fun _ => hwords) (by omega)
            (wp_readWord_of (fun _ => hwords) (by omega)
              (wp_readWord_of (fun _ => hwords) (by omega) ⟨_, rfl⟩))
        · next hib hf hb =>
          rw [if_pos]
          · exact ⟨_, rfl⟩
          · rcases ha.1 with h | h | h | h | h | h
            · exact absurd h hib
            · exact absurd h hf
            · exact .inl h
            · exact .inr (.inl h)
            · exact .inr (.inr h)
            · exact absurd h hb
  · cases h
  · cases h
  · cases h

/-- A chunk without the words its length check promised is read all the same. -/
theorem not_wp_parserInitChunk (hr : ¬ c.Readable) (i numIbs : ℕ) (uf : UInt32)
    {Q : Except Errno (ℕ × UInt32) → Parser → Prop} :
    ¬ wp False (parserInitChunk (obligingEnv chunksOk mnOk) i c numIbs uf) Q p := by
  unfold parserInitChunk
  simp only [wp_bind, wp_require, wp_ite, wp_pure, wp_fail]
  intro h
  replace h := ((h.1 rfl).1 rfl).1 rfl
  unfold Chunk.Readable at hr
  by_cases hf : c.chunkId = chunkIdFence
  · have hib : c.chunkId ≠ chunkIdIb := by rw [hf]; decide
    have hb : c.chunkId ≠ chunkIdBoHandles := by rw [hf]; decide
    have hr : 2 ≤ c.lengthDw.toNat ∧ c.copiedDw < 2 := by
      simpa [hf, show chunkIdFence ≠ chunkIdBoHandles by decide] using hr
    rw [if_neg hib, if_pos hf, if_neg (by omega)] at h
    simp [csUserFenceChunk, obligingEnv, wp_ite] at h
    omega
  · by_cases hb : c.chunkId = chunkIdBoHandles
    · have hib : c.chunkId ≠ chunkIdIb := by rw [hb]; decide
      have hr : 6 ≤ c.lengthDw.toNat ∧ c.copiedDw < 6 := by
        simpa [hb, show chunkIdBoHandles ≠ chunkIdFence by decide] using hr
      rw [if_neg hib, if_neg hf, if_pos hb, if_neg (by omega)] at h
      unfold csBoHandlesChunk readQword at h
      simp only [wp_bind, wp_readWord] at h
      have h4 : 4 < c.copiedDw := by by_contra h'; exact h.2 (by omega)
      exact (h.1 h4).2 (by omega)
    · exact hr ⟨fun h => absurd h hf, fun h => absurd h hb⟩

theorem parserInitLoop_ok (hr : ReachedReadable cs) (ha : ∀ c ∈ cs, c.Acceptable)
    (i numIbs : ℕ) (uf : UInt32) :
    wp False (parserInitLoop (obligingEnv chunksOk mnOk) i cs numIbs uf)
      (fun r _ => ∃ x, r = .ok x) p := by
  induction cs generalizing i numIbs uf p with
  | nil => exact ⟨_, rfl⟩
  | cons c cs ih =>
    have hc := ha c List.mem_cons_self
    unfold parserInitLoop
    rw [wp_bind]
    refine wp_mono (parserInitChunk_ok hr.1 hc i numIbs uf) fun r p' hx => ?_
    obtain ⟨x, rfl⟩ := hx
    exact ih (hr.2 hc) (fun d hd => ha d (List.mem_cons_of_mem _ hd)) _ _ _

theorem not_wp_parserInitLoop (hr : ¬ ReachedReadable cs) (i numIbs : ℕ) (uf : UInt32)
    {Q : Except Errno (ℕ × UInt32) → Parser → Prop} :
    ¬ wp False (parserInitLoop (obligingEnv chunksOk mnOk) i cs numIbs uf) Q p := by
  induction cs generalizing i numIbs uf p with
  | nil => exact absurd trivial hr
  | cons c cs ih =>
    unfold parserInitLoop
    rw [wp_bind]
    by_cases hc : c.Readable
    · have hrest : c.Acceptable ∧ ¬ ReachedReadable cs := by
        simpa [ReachedReadable, hc] using hr
      intro h
      obtain ⟨r, p', h, x, rfl⟩ := exists_of_wp (wp_and h (parserInitChunk_ok hc hrest.1 i numIbs uf))
      exact ih hrest.2 (i + 1) x.1 x.2 h
    · exact not_wp_parserInitChunk hc i numIbs uf

/-- The obliging environment accepts what can be accepted. -/
theorem csParserInit_ok (hr : ReachedReadable req.chunks) (ha : ∀ c ∈ req.chunks, c.Acceptable)
    (hibs : 0 < ibCount req.chunks) :
    wp False (csParserInit (obligingEnv true mnOk) req)
      (fun r p => r = .ok () ∧ Initialized (obligingEnv true mnOk) req p) Parser.zero := by
  have hne : req.chunks ≠ [] := by rintro he; simp [he, ibCount] at hibs
  have hlen : req.chunks.length ≠ 0 := by simpa using hne
  have hspec := csParserInit_spec (F := False) (obligingEnv true mnOk) req hne (fun _ => hr)
    fun _ => rfl
  have hok : wp False (csParserInit (obligingEnv true mnOk) req) (fun r _ => r = .ok ())
      Parser.zero := by
    unfold csParserInit
    rw [wp_ite, if_neg hlen]
    simp only [obligingEnv, wp_bind, wp_require, wp_modify, wp_onError]
    refine ⟨fun _ => ⟨fun _ => ⟨fun _ => ⟨fun _ => ?_, by simp⟩, by simp⟩, by simp⟩, by simp⟩
    have hloop : ∀ p, wp False (parserInitLoop (obligingEnv true mnOk) 0 req.chunks 0 0)
        (fun r _ => ∃ x, r = .ok x) p := fun p => parserInitLoop_ok hr ha 0 0 0
    refine wp_mono (wp_and (hloop _)
      (parserInitLoop_spec (obligingEnv true mnOk) req.chunks (fun _ => hr) 0 0 0 _))
      fun r p hrp => ?_
    obtain ⟨⟨x, rfl⟩, ⟨l, u, rfl⟩, hx⟩ := hrp
    have hx := (hx x.1 x.2 rfl).1
    have hpos : x.1 ≠ 0 := by omega
    simp only [jobAlloc, wp_ite, if_neg hpos, wp_bind, wp_require, wp_modify, wp_gets,
      wp_deref_some]
    simp
  refine wp_mono (wp_and hok hspec) fun r p hrp => ?_
  obtain ⟨rfl, hinit⟩ := hrp
  exact ⟨rfl, hinit⟩

/-- The obliging environment maps every IB to one ring. -/
theorem ibFillChunk_ok (hc : 8 ≤ c.copiedDw) (i : ℕ) (hctx : p.ctx.isSome)
    (hring : p.ring = none ∨ p.ring = some ⟨0, .gfx⟩) :
    wp False (ibFillChunk (obligingEnv chunksOk mnOk) i c)
      (fun r p' => r = .ok () ∧ p'.ring = some ⟨0, .gfx⟩) p := by
  obtain ⟨ctx, hctx'⟩ := Option.isSome_iff_exists.mp hctx
  unfold ibFillChunk
  simp only [wp_bind, wp_gets]
  refine wp_deref_of hctx' (wp_readWord_of (fun _ => hc) (by omega)
    (wp_readWord_of (fun _ => hc) (by omega) (wp_readWord_of (fun _ => hc) (by omega) ?_)))
  simp only [obligingEnv, wp_outcome]
  refine wp_readWord_of (fun _ => hc) (by omega) ?_
  have hflag : wp False (notePreamble (c.data 1)) (fun r p' => r = .ok () ∧ p'.ring = p.ring) p := by
    unfold notePreamble
    rw [wp_ite]
    split <;> exact ⟨rfl, rfl⟩
  refine wp_mono hflag fun r p₁ hr => ?_
  obtain ⟨rfl, hp₁⟩ := hr
  simp only [wp_require, wp_modify, hp₁]
  refine ⟨fun _ => ?_, fun h => ?_⟩
  · exact wp_readQword_of (fun _ => hc) (by omega) (wp_readWord_of (fun _ => hc) (by omega)
      ⟨trivial, rfl⟩)
  · rcases hring with h' | h' <;> simp [h'] at h

theorem not_wp_ibFillChunk (hc : c.copiedDw < 8) (i : ℕ) (hctx : p.ctx.isSome)
    {Q : Except Errno Unit → Parser → Prop} :
    ¬ wp False (ibFillChunk (obligingEnv chunksOk mnOk) i c) Q p := by
  obtain ⟨ctx, hctx'⟩ := Option.isSome_iff_exists.mp hctx
  unfold ibFillChunk
  simp only [wp_bind, wp_gets, hctx', wp_deref_some, wp_readWord]
  rintro ⟨h, h5⟩
  have hlt : 5 < c.copiedDw := by by_contra h'; exact h5 (by omega)
  obtain ⟨h, h6⟩ := h hlt
  have hlt : 6 < c.copiedDw := by by_contra h'; exact h6 (by omega)
  exact (h hlt).2 (by omega)

theorem ibFillLoop_ok (hcs : ∀ c ∈ cs, c.chunkId = chunkIdIb → 8 ≤ c.copiedDw) (i j : ℕ)
    {job : Job} (hjob : p.job = some job) (hctx : p.ctx.isSome)
    (hring : p.ring = none ∨ p.ring = some ⟨0, .gfx⟩) :
    wp False (ibFillLoop (obligingEnv chunksOk mnOk) i cs j) (fun r _ => r = .ok ()) p := by
  induction cs generalizing i j p job with
  | nil => exact rfl
  | cons c cs ih =>
    have hcs' : ∀ c ∈ cs, c.chunkId = chunkIdIb → 8 ≤ c.copiedDw := fun d hd =>
      hcs d (List.mem_cons_of_mem _ hd)
    unfold ibFillLoop
    simp only [wp_bind, wp_gets, hjob, wp_deref_some, wp_ite]
    split
    · exact rfl
    · split
      · exact ih hcs' (i + 1) j hjob hctx hring
      · next hid =>
        have hc := hcs c List.mem_cons_self (by simpa using hid)
        refine wp_mono (wp_and (ibFillChunk_ok hc i hctx hring)
          (ibFillChunk_spec _ i (fun _ => hc) hjob hctx)) fun r p₁ hr => ?_
        obtain ⟨⟨rfl, hring₁⟩, ⟨job₁, ring₁, rfl⟩, hok⟩ := hr
        obtain ⟨_, b, hjob₁⟩ := hok rfl
        exact ih hcs' (i + 1) (j + 1) hjob₁ hctx (.inr hring₁)

/-- An IB chunk that is too short is read all the same. -/
theorem not_wp_ibFillLoop (hcs : ∃ c ∈ cs, c.chunkId = chunkIdIb ∧ c.copiedDw < 8) (i j : ℕ)
    {job : Job} (hjob : p.job = some job) (hctx : p.ctx.isSome)
    (hring : p.ring = none ∨ p.ring = some ⟨0, .gfx⟩) (hn : job.numIbs = j + ibCount cs)
    {Q : Except Errno Unit → Parser → Prop} :
    ¬ wp False (ibFillLoop (obligingEnv chunksOk mnOk) i cs j) Q p := by
  induction cs generalizing i j p job with
  | nil => simp at hcs
  | cons c cs ih =>
    obtain ⟨d, hd, hdib, hshort⟩ := hcs
    have hpos : 0 < ibCount (c :: cs) := List.countP_pos_iff.mpr ⟨d, hd, by simpa using hdib⟩
    unfold ibFillLoop
    simp only [wp_bind, wp_gets, hjob, wp_deref_some, wp_ite]
    rw [if_neg (by omega)]
    split
    · next hid =>
      have hd : d ∈ cs := by
        rcases List.mem_cons.mp hd with rfl | hd
        · exact absurd hdib hid
        · exact hd
      rw [ibCount_cons_of_ne cs hid] at hn
      exact ih ⟨d, hd, hdib, hshort⟩ (i + 1) j hjob hctx hring hn
    · next hid =>
      have hid : c.chunkId = chunkIdIb := by simpa using hid
      by_cases hc : 8 ≤ c.copiedDw
      · have hd : d ∈ cs := by
          rcases List.mem_cons.mp hd with rfl | hd
          · omega
          · exact hd
        rw [ibCount_cons_of_eq cs hid] at hn
        intro h
        obtain ⟨r, p₁, h, ⟨rfl, hring₁⟩, ⟨job₁, ring₁, rfl⟩, hok⟩ := exists_of_wp (wp_and h
          (wp_and (ibFillChunk_ok hc i hctx hring) (ibFillChunk_spec _ i (fun _ => hc) hjob hctx)))
        obtain ⟨_, b, hjob₁⟩ := hok rfl
        exact ih ⟨d, hd, hdib, hshort⟩ (i + 1) (j + 1) hjob₁ hctx (.inr hring₁) (by simp; omega) h
      · exact not_wp_ibFillChunk (by omega) i hctx

theorem csIbFill_ok (h : Initialized (obligingEnv chunksOk mnOk) req p)
    (hibs : ∀ c ∈ req.chunks, c.chunkId = chunkIdIb → 8 ≤ c.copiedDw) :
    wp False (csIbFill (obligingEnv chunksOk mnOk)) (fun r p' => r = .ok () ∧
      Filled (obligingEnv chunksOk mnOk) req p') p := by
  obtain ⟨job, hjob, hn, -⟩ := h.job
  have hok : wp False (csIbFill (obligingEnv chunksOk mnOk)) (fun r _ => r = .ok ()) p := by
    unfold csIbFill
    rw [wp_bind, wp_parserChunks h.toParsed]
    simp only [wp_bind]
    refine wp_mono (wp_and (ibFillLoop_ok hibs 0 0 hjob h.ctx (.inl h.ring))
      (ibFillLoop_spec _ req.chunks (fun _ => hibs) 0 0 p job hjob h.ctx (by omega)))
      fun r p' hr => ?_
    obtain ⟨rfl, ⟨job', ring', rfl⟩, hok⟩ := hr
    obtain ⟨_, _, _, hring⟩ := hok rfl
    obtain ⟨ring, hring⟩ := Option.isSome_iff_exists.mp (hring (.inl h.ibs))
    obtain ⟨ctx, hctx⟩ := Option.isSome_iff_exists.mp h.ctx
    simp only [wp_gets]
    refine wp_deref_of hring (wp_deref_of hctx ?_)
    trivial
  refine wp_mono (wp_and hok (csIbFill_spec _ h fun _ => hibs)) fun r p' hr => ?_
  obtain ⟨rfl, _, hfilled⟩ := hr
  exact ⟨rfl, hfilled rfl⟩

/-- A list of userptr BOs makes the ioctl ask for a notifier, and keep whatever it gets. -/
theorem csParserBos_ok (h : Filled (obligingEnv chunksOk false) req p) (hmay : MayList req) :
    wp False (csParserBos (obligingEnv chunksOk false) req) (fun r p' => r = .ok () ∧
      Listed (obligingEnv chunksOk false) req p' ∧ p'.mn = .errPtr) p := by
  obtain ⟨job, hjob, -⟩ := h.job
  have hbo : wp False (parserBoList (obligingEnv chunksOk false) req) (fun r p' => r = .ok () ∧
      ∃ list, p' = { p with boList := some list } ∧ list.firstUserptr ≠ list.numEntries) p := by
    have hlist := h.list
    unfold BoListAfter at hlist
    unfold parserBoList
    simp only [wp_bind, wp_gets, wp_ite]
    rcases hmay.list with ⟨hne, hnone⟩ | ⟨hzero, c, hc, hc0⟩
    · rw [hnone] at hlist
      have hlist : p.boList = none := hlist
      rw [if_pos hne, if_neg (by simp [hlist])]
      exact ⟨rfl, ⟨1, 0⟩, rfl, by simp⟩
    · rw [hc] at hlist
      obtain ⟨i, k, hk, hlist⟩ := hlist
      obtain rfl : (c.data 2).toNat = k := Except.ok.inj hk
      rw [if_neg (by simpa using hzero), if_neg (by simp [hlist])]
      refine ⟨rfl, _, by rw [← hlist], ?_⟩
      have hpos : (c.data 2).toNat ≠ 0 := fun h0 => hc0 (UInt32.toNat_inj.mp (by simpa using h0))
      simp only [boListCreate]
      omega
  have hok : wp False (csParserBos (obligingEnv chunksOk false) req) (fun r p' => r = .ok () ∧
      p'.mn = .errPtr) p := by
    unfold csParserBos
    rw [wp_bind]
    refine wp_mono hbo fun r p₁ hr => ?_
    obtain ⟨rfl, list, rfl, huser⟩ := hr
    have hmn : parserMn (obligingEnv chunksOk false) list =
        Prog.modify fun p => { p with mn := .errPtr } := by
      unfold parserMn
      rw [if_pos huser]
      rfl
    simp only [wp_bind, wp_gets, wp_deref_some, hmn, wp_modify]
    cases hu : p.ufRobj with
    | none => exact ⟨rfl, rfl⟩
    | some uf =>
      simp only [obligingEnv, wp_outcome]
      rw [wp_bind, wp_gets]
      dsimp only
      rw [wp_bind]
      refine wp_deref_of hjob ?_
      exact ⟨rfl, rfl⟩
  refine wp_mono (wp_and hok (csParserBos_spec _ h)) fun r p' hr => ?_
  obtain ⟨⟨rfl, hmn⟩, _, hlisted⟩ := hr
  exact ⟨rfl, hlisted rfl, hmn⟩

theorem csDependency_ok {job : Job} (hjob : p.job = some job) (k : ℕ) :
    wp False (csDependency (obligingEnv chunksOk mnOk) k c) (fun r _ => r = .ok ()) p := by
  have h24 : 6 * (0 + numDeps c 24) ≤ c.copiedDw := by unfold numDeps Chunk.copiedDw; omega
  have h4 : 0 + numDeps c 4 ≤ c.copiedDw := by unfold numDeps Chunk.copiedDw; omega
  have hdep : ∀ n i, 6 * (i + n) ≤ c.copiedDw →
      wp False (fenceDepLoop (obligingEnv chunksOk mnOk) k c n i) (fun r _ => r = .ok ()) p := by
    intro n
    induction n with
    | zero => exact fun _ _ => rfl
    | succ n ih =>
      intro i hn
      have hc : ¬ False → 6 * i + 6 ≤ c.copiedDw := fun _ => by omega
      unfold fenceDepLoop
      rw [wp_bind]
      refine wp_readWord_of hc (by omega) ?_
      simp only [obligingEnv, wp_bind]
      refine wp_readWord_of hc (by omega) (wp_readWord_of hc (by omega)
        (wp_readWord_of hc (by omega) ?_))
      refine wp_readQword_of hc (by omega) ?_
      simp only [wp_outcome, addFenceDep, if_true, wp_bind, wp_gets]
      refine wp_deref_of hjob ?_
      exact ih (i + 1) (by omega)
  have hin : ∀ n i, i + n ≤ c.copiedDw →
      wp False (syncobjInLoop (obligingEnv chunksOk mnOk) k c n i) (fun r _ => r = .ok ()) p := by
    intro n
    induction n with
    | zero => exact fun _ _ => rfl
    | succ n ih =>
      intro i hn
      unfold syncobjInLoop
      simp only [wp_bind]
      refine wp_readWord_of (n := i + 1) (fun _ => by omega) (by omega) ?_
      exact wp_deref_of hjob (ih (i + 1) (by omega))
  have hout : ∀ n i p, i + n ≤ c.copiedDw →
      wp False (syncobjOutLoop (obligingEnv chunksOk mnOk) k c n i) (fun r _ => r = .ok ()) p := by
    intro n
    induction n with
    | zero => exact fun _ _ _ => rfl
    | succ n ih =>
      intro i p hn
      unfold syncobjOutLoop
      simp only [wp_bind]
      refine wp_readWord_of (n := i + 1) (fun _ => by omega) (by omega) ?_
      exact ih (i + 1) _ (by omega)
  unfold csDependency
  simp only [wp_ite]
  split
  · exact hdep _ 0 h24
  · split
    · exact hin _ 0 h4
    · split
      · exact hout _ 0 _ h4
      · exact rfl

theorem csDependencies_ok {job : Job} (hjob : p.job = some job) (k : ℕ) (cs : List Chunk) :
    wp False (csDependencies (obligingEnv chunksOk mnOk) k cs) (fun r _ => r = .ok ()) p := by
  induction cs generalizing k p with
  | nil => exact rfl
  | cons c cs ih =>
    unfold csDependencies
    rw [wp_bind]
    refine wp_mono (wp_and (csDependency_ok hjob k) (csDependency_spec _ k hjob)) fun r p' hr => ?_
    obtain ⟨rfl, m, rfl⟩ := hr
    have hjob' : { p with numPostDepSyncobjs := m }.job = some job := hjob
    exact ih hjob' (k + 1)

/-- With a failed notifier the last pass takes a lock that is not there. -/
theorem not_wp_csSubmit (h : Listed (obligingEnv chunksOk mnOk) req p) (hmn : p.mn = .errPtr)
    {Q : Except Errno Job → Parser → Prop} :
    ¬ wp False (csSubmit (obligingEnv chunksOk mnOk)) Q p := by
  obtain ⟨job, hjob, -⟩ := h.job
  obtain ⟨ring, hring⟩ := Option.isSome_iff_exists.mp h.ring
  obtain ⟨ctx, hctx⟩ := Option.isSome_iff_exists.mp h.ctx
  unfold csSubmit
  simp [hring, hctx, hjob, hmn, obligingEnv, mnLock]

end Obliging

/-- What a request that is always safe looks like: the obliging environment takes it as far as
it can get. -/
theorem requestOk_of_safe {chunksOk mnOk : Bool} {req : Request}
    (h : Safe (csIoctl (obligingEnv chunksOk mnOk) req) Parser.zero) :
    RequestOk req ∧ chunksOk = true ∧ (mnOk = true ∨ ¬ MayList req) := by
  have hne : req.chunks ≠ [] := by
    intro he
    simp [Safe, csIoctl, obligingEnv, csPasses, csParserInit, he, csIbFill, parserChunks,
      Parser.zero, ibFillLoop] at h
  have hlen : req.chunks.length ≠ 0 := by simpa using hne
  replace h : wp False (csPasses (obligingEnv chunksOk mnOk) req)
      (fun _ p => wp False csParserFini (fun _ _ => True) p) Parser.zero := by
    unfold Safe csIoctl at h
    rw [wp_ite, if_pos (by rfl), wp_ensuring] at h
    exact h
  unfold csPasses at h
  rw [wp_bind] at h
  have hchunks : chunksOk = true := by
    by_contra hfalse
    have hfalse : chunksOk = false := by simpa using hfalse
    subst hfalse
    unfold csParserInit at h
    simp [hne, obligingEnv, csParserFini, parserChunks, Parser.zero] at h
  subst hchunks
  have hread : ReachedReadable req.chunks := by
    by_contra hread
    unfold csParserInit at h
    rw [wp_ite, if_neg hlen] at h
    simp only [obligingEnv, wp_bind, wp_require, wp_modify, wp_onError] at h
    replace h := (((h.1 trivial).1 rfl).1 trivial).1 trivial
    exact not_wp_parserInitLoop hread 0 0 0 h
  have hibs : (∀ c ∈ req.chunks, c.Acceptable) →
      ∀ c ∈ req.chunks, c.chunkId = chunkIdIb → 8 ≤ c.copiedDw := by
    intro hacc c hc hib
    by_contra hshort
    have hpos : 0 < ibCount req.chunks := List.countP_pos_iff.mpr ⟨c, hc, by simpa using hib⟩
    obtain ⟨r, p, h, rfl, hinit⟩ := exists_of_wp (wp_and h (csParserInit_ok hread hacc hpos))
    obtain ⟨job, hjob, hn, -⟩ := hinit.job
    simp only [csIbFill, wp_bind] at h
    rw [wp_parserChunks hinit.toParsed] at h
    exact not_wp_ibFillLoop ⟨c, hc, hib, by omega⟩ 0 0 hjob hinit.ctx (.inl hinit.ring)
      (by omega) h
  refine ⟨⟨hne, hread, hibs⟩, rfl, ?_⟩
  by_contra hmn
  have hmn : mnOk = false ∧ MayList req := by simpa using hmn
  obtain ⟨rfl, hmay⟩ := hmn
  -- every pass succeeds, and the last one faults
  obtain ⟨r, p, h, rfl, hinit⟩ :=
    exists_of_wp (wp_and h (csParserInit_ok hread hmay.acceptable hmay.ibs))
  dsimp only at h
  rw [wp_bind] at h
  obtain ⟨r, p, h, rfl, hfilled⟩ :=
    exists_of_wp (wp_and h (csIbFill_ok hinit (hibs hmay.acceptable)))
  dsimp only at h
  rw [wp_bind] at h
  obtain ⟨r, p, h, rfl, hlisted, hmn⟩ := exists_of_wp (wp_and h (csParserBos_ok hfilled hmay))
  dsimp only at h
  rw [wp_bind, wp_parserChunks hlisted.toParsed] at h
  dsimp only at h
  rw [wp_bind] at h
  obtain ⟨job, hjob, -⟩ := hlisted.job
  obtain ⟨ring, hring⟩ := Option.isSome_iff_exists.mp hlisted.ring
  obtain ⟨r, p', h, rfl, m, rfl⟩ := exists_of_wp (wp_and h
    (wp_and (csDependencies_ok hjob 0 req.chunks) (csDependencies_spec _ 0 req.chunks hjob)))
  have hlisted' : Listed (obligingEnv true false) req { p with numPostDepSyncobjs := m } :=
    ⟨⟨hlisted.acceptable, hlisted.ibs, hlisted.ctx, hlisted.nchunks, hlisted.chunks⟩,
      hlisted.job, hlisted.ring, hlisted.list, hlisted.mn⟩
  refine not_wp_csSubmit hlisted' hmn (Q := fun _ p => wp False csParserFini (fun _ _ => True) p) ?_
  simpa [traceCs, csIbVmChunk, hjob, hring, obligingEnv, wp_ite] using h

/-- The ioctl is total on a request, whatever else the functions it calls answer, exactly when
the request names at least one chunk, supplies every word the reached chunks are read for, the
chunk array can be allocated, and a list of userptr BOs finds a notifier. -/
theorem csIoctl_total_iff (req : Request) (chunksOk mnOk : Bool) :
    (∀ env : Env, env.chunksOk = chunksOk → env.mnOk = mnOk →
      Safe (csIoctl env req) Parser.zero) ↔
    RequestOk req ∧ chunksOk = true ∧ (mnOk = true ∨ ¬ MayList req) := by
  constructor
  · intro h
    exact requestOk_of_safe (h (obligingEnv chunksOk mnOk) rfl rfl)
  · rintro ⟨hreq, hok, hmn⟩ env rfl rfl
    exact csIoctl_safe env hreq hok hmn

/-- A request without chunks: the first pass returns 0 at once, and the second follows the
ring that nobody set. -/
theorem csIoctl_no_chunks_unsafe :
    ¬ Safe (csIoctl (obligingEnv true true) ⟨0, 0, []⟩) Parser.zero := by
  rw [safe_iff]
  intro h
  exact h .ring rfl

end Gsgpu.Cs
