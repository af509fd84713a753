import Gsgpu.Cs.Parser
import Mathlib.Tactic.ByContra

/-! What each pass of the command submission ioctl leaves behind. The lemmas are stated for any
`F` that a fault is allowed: with `False` they say that the pass makes no access it has no right
to make, with `True` what an accepted request amounts to. -/
namespace Gsgpu.Cs

open Prog

/-- The chunk has the words its length check promises. The check is made on the 64-bit product,
the copy on the 32-bit one. -/
def Chunk.Readable (c : Chunk) : Prop :=
  (c.chunkId = chunkIdFence → 2 ≤ c.lengthDw.toNat → 2 ≤ c.copiedDw) ∧
    (c.chunkId = chunkIdBoHandles → 6 ≤ c.lengthDw.toNat → 6 ≤ c.copiedDw)

/-- `gsgpu_cs_parser_init` can get past the chunk. -/
def Chunk.Acceptable (c : Chunk) : Prop :=
  (c.chunkId = chunkIdIb ∨ c.chunkId = chunkIdFence ∨ c.chunkId = chunkIdDependencies ∨
    c.chunkId = chunkIdSyncobjIn ∨ c.chunkId = chunkIdSyncobjOut ∨ c.chunkId = chunkIdBoHandles) ∧
  (c.chunkId = chunkIdFence → 2 ≤ c.lengthDw.toNat ∧ ufEnd (c.data 1) ≤ pageSize) ∧
  (c.chunkId = chunkIdBoHandles → 6 ≤ c.lengthDw.toNat)

/-- Every chunk that the parser can reach is readable. -/
def ReachedReadable : List Chunk → Prop
  | [] => True
  | c :: cs => c.Readable ∧ (c.Acceptable → ReachedReadable cs)

/-- The number of IB chunks. -/
def ibCount (cs : List Chunk) : ℕ := cs.countP (·.chunkId = chunkIdIb)

/-- The `BO_HANDLES` chunk whose list the parser ends up with. -/
def lastBoHandles : List Chunk → Option Chunk
  | [] => none
  | c :: cs => (lastBoHandles cs).or (if c.chunkId = chunkIdBoHandles then some c else none)

/-- The request is well formed as far as the words it makes the ioctl read. -/
structure RequestOk (req : Request) : Prop where
  nonempty : req.chunks ≠ []
  readable : ReachedReadable req.chunks
  ibs : (∀ c ∈ req.chunks, c.Acceptable) →
    ∀ c ∈ req.chunks, c.chunkId = chunkIdIb → 8 ≤ c.copiedDw

/-- The request can be accepted with a list that holds userptr BOs. -/
structure MayList (req : Request) : Prop where
  acceptable : ∀ c ∈ req.chunks, c.Acceptable
  ibs : 0 < ibCount req.chunks
  list : (req.boListHandle ≠ 0 ∧ lastBoHandles req.chunks = none) ∨
    (req.boListHandle = 0 ∧ ∃ c, lastBoHandles req.chunks = some c ∧ c.data 2 ≠ 0)

variable {F : Prop}

@[simp] theorem wp_readWord {c : Chunk} {i : ℕ} {Q : Except Errno UInt32 → Parser → Prop}
    {p : Parser} : wp F (readWord c i) Q p =
      ((i < c.copiedDw → Q (.ok (c.data i)) p) ∧ (c.copiedDw ≤ i → F)) := by
  unfold readWord
  split
  · next h => simp [h, Nat.not_le.mpr h]
  · next h => simp [h, Nat.not_lt.mp h]

/-- A word that was copied, or whose absence is allowed for, can be read. -/
theorem wp_readWord_of {c : Chunk} {i n : ℕ} {Q : Except Errno UInt32 → Parser → Prop}
    {p : Parser} (h : ¬ F → n ≤ c.copiedDw) (hi : i < n) (hQ : Q (.ok (c.data i)) p) :
    wp F (readWord c i) Q p := by
  rw [wp_readWord]
  refine ⟨fun _ => hQ, fun hle => ?_⟩
  by_contra hF
  have := h hF
  omega

theorem wp_readQword_of {c : Chunk} {i n : ℕ} {Q : Except Errno ℕ → Parser → Prop}
    {p : Parser} (h : ¬ F → n ≤ c.copiedDw) (hi : i + 1 < n)
    (hQ : Q (.ok ((c.data (i + 1)).toNat * 2 ^ 32 + (c.data i).toNat)) p) :
    wp F (readQword c i) Q p := by
  unfold readQword
  rw [wp_bind]
  refine wp_readWord_of h (by omega) ?_
  simp only [wp_bind]
  exact wp_readWord_of h hi hQ

/-- The first pass changes only the list and the user fence. -/
def InitFrame (p p' : Parser) : Prop := ∃ l u, p' = { p with boList := l, ufRobj := u }

theorem InitFrame.refl (p : Parser) : InitFrame p p := ⟨p.boList, p.ufRobj, rfl⟩

theorem InitFrame.trans {p p' p'' : Parser} (h : InitFrame p p') (h' : InitFrame p' p'') :
    InitFrame p p'' := by
  obtain ⟨l, u, rfl⟩ := h
  obtain ⟨l', u', rfl⟩ := h'
  exact ⟨l', u', rfl⟩

theorem csUserFenceChunk_spec {env : Env} {i : ℕ} {c : Chunk} {p : Parser}
    (h : ¬ F → 2 ≤ c.copiedDw) :
    wp F (csUserFenceChunk env i c) (fun r p' => (∃ u, p' = { p with ufRobj := u }) ∧
      ∀ u, r = .ok u → ufEnd (c.data 1) ≤ pageSize) p := by
  unfold csUserFenceChunk
  rw [wp_bind]
  refine wp_readWord_of h (by omega) ?_
  dsimp only
  split
  · exact ⟨⟨p.ufRobj, rfl⟩, by simp⟩
  · next bo _ =>
    simp only [wp_bind, wp_modify, wp_ite, wp_fail]
    split
    · exact ⟨⟨none, rfl⟩, by simp⟩
    · next hsize =>
      refine wp_readWord_of h (by omega) ?_
      dsimp only
      split
      · exact ⟨⟨none, rfl⟩, by simp⟩
      · next hfit =>
        refine ⟨⟨some bo, rfl⟩, fun u _ => ?_⟩
        simp only [ne_eq, not_not] at hsize
        simp only [Bool.or_eq_true, decide_eq_true_eq, not_or, Nat.not_lt] at hfit
        rw [← hsize]
        exact hfit.1

/-- The list a `BO_HANDLES` chunk leaves. -/
def ListOf (env : Env) (c : Chunk) (list : Option BoList) : Prop :=
  ∃ i k, env.boListUserptrs i (c.data 2) = .ok k ∧
    list = some (boListCreate (c.data 2).toNat k)

theorem csBoHandlesChunk_spec {env : Env} {i : ℕ} {c : Chunk} {p : Parser}
    (h : ¬ F → 6 ≤ c.copiedDw) :
    wp F (csBoHandlesChunk env i c) (fun r p' => InitFrame p p' ∧
      (r = .ok () → ListOf env c p'.boList)) p := by
  unfold csBoHandlesChunk
  rw [wp_bind]
  refine wp_readQword_of h (by omega) ?_
  simp only [wp_bind]
  refine wp_readWord_of h (by omega) ?_
  refine wp_readWord_of h (by omega) ?_
  simp only [wp_outcome, wp_modify]
  split
  · exact ⟨.refl p, by simp⟩
  · split
    · exact ⟨.refl p, by simp⟩
    · next k hk => exact ⟨⟨_, p.ufRobj, rfl⟩, fun _ => ⟨i, k, hk, rfl⟩⟩

/-- The list the parser holds after the chunks `cs`. -/
def BoListAfter (env : Env) (cs : List Chunk) (before after : Option BoList) : Prop :=
  match lastBoHandles cs with
  | none => after = before
  | some c => ListOf env c after

theorem BoListAfter.cons {env : Env} {c : Chunk} {cs : List Chunk} {l₀ l₁ l₂ : Option BoList}
    (h : BoListAfter env cs l₁ l₂)
    (hc : if c.chunkId = chunkIdBoHandles then ListOf env c l₁ else l₁ = l₀) :
    BoListAfter env (c :: cs) l₀ l₂ := by
  unfold BoListAfter at h ⊢
  unfold lastBoHandles
  cases hl : lastBoHandles cs with
  | some d => rw [hl] at h; simpa using h
  | none =>
    rw [hl] at h
    obtain rfl : l₂ = l₁ := h
    split at hc
    · next hid => simpa [hid] using hc
    · next hid => simpa [hid] using hc

/-- What one chunk of the first pass leaves. -/
def ChunkPost (env : Env) (c : Chunk) (numIbs : ℕ) (p : Parser) (r : Except Errno (ℕ × UInt32))
    (p' : Parser) : Prop :=
  InitFrame p p' ∧ ∀ n u, r = .ok (n, u) → n = numIbs + ibCount [c] ∧ c.Acceptable ∧
    if c.chunkId = chunkIdBoHandles then ListOf env c p'.boList else p'.boList = p.boList

theorem ChunkPost.error {env : Env} {c : Chunk} {numIbs : ℕ} {p p' : Parser} (h : InitFrame p p')
    (e : Errno) : ChunkPost env c numIbs p (.error e) p' := ⟨h, by simp⟩

theorem ChunkPost.ok {env : Env} {c : Chunk} {numIbs n : ℕ} {u : UInt32} {p p' : Parser}
    (h : InitFrame p p') (hn : n = numIbs + ibCount [c]) (hacc : c.Acceptable)
    (hlist : if c.chunkId = chunkIdBoHandles then ListOf env c p'.boList
      else p'.boList = p.boList) :
    ChunkPost env c numIbs p (.ok (n, u)) p' := by
  refine ⟨h, fun n' u' hr => ?_⟩
  obtain ⟨rfl, rfl⟩ := Prod.mk.inj (Except.ok.inj hr)
  exact ⟨hn, hacc, hlist⟩

theorem parserInitChunk_spec (env : Env) {c : Chunk} (hc : ¬ F → c.Readable) (i numIbs : ℕ)
    (uf : UInt32) (p : Parser) :
    wp F (parserInitChunk env i c numIbs uf) (ChunkPost env c numIbs p) p := by
  unfold parserInitChunk
  simp only [wp_bind, wp_require, wp_ite, wp_pure, wp_fail]
  refine ⟨fun _ => ⟨fun _ => ⟨fun _ => ?_, fun _ => .error (.refl p) _⟩, fun _ => .error (.refl p) _⟩,
    fun _ => .error (.refl p) _⟩
  split
  · next hib =>
    refine .ok (.refl p) (by simp [ibCount, hib]) ⟨.inl hib, ?_, ?_⟩ ?_
    · exact fun h => absurd (hib.symm.trans h) (by decide)
    · exact fun h => absurd (hib.symm.trans h) (by decide)
    · rw [hib, if_neg (by decide)]
  · split
    · next hnib hf =>
      split
      · exact .error (.refl p) _
      · next hlen =>
        refine wp_mono (csUserFenceChunk_spec fun hF => (hc hF).1 hf (by omega)) fun r p' hr => ?_
        obtain ⟨⟨u, rfl⟩, hr⟩ := hr
        cases r with
        | error e => exact .error ⟨_, u, rfl⟩ _
        | ok off =>
          refine .ok ⟨_, u, rfl⟩ (by simp [ibCount, hnib])
            ⟨.inr (.inl hf), fun _ => ⟨by omega, hr off rfl⟩, ?_⟩ ?_
          · exact fun h => absurd (hf.symm.trans h) (by decide)
          · rw [hf, if_neg (by decide)]
    · split
      · next hnib hnf hb =>
        split
        · exact .error (.refl p) _
        · next hlen =>
          refine wp_mono (csBoHandlesChunk_spec fun hF => (hc hF).2 hb (by omega)) fun r p' hr => ?_
          obtain ⟨hframe, hr⟩ := hr
          cases r with
          | error e => exact .error hframe _
          | ok off =>
            refine .ok hframe (by simp [ibCount, hnib])
              ⟨by simp [hb], fun h => absurd h hnf, fun _ => by omega⟩ ?_
            rw [if_pos hb]
            exact hr rfl
      · split
        · next hnib hnf hnb hdep =>
          refine .ok (.refl p) (by simp [ibCount, hnib]) ⟨?_, fun h => absurd h hnf,
            fun h => absurd h hnb⟩ (by rw [if_neg hnb])
          rcases hdep with h | h | h <;> simp [h]
        · exact .error (.refl p) _

/-- What the loop of the first pass leaves: the number of IBs and the last list. -/
def InitPost (env : Env) (cs : List Chunk) (numIbs : ℕ) (p : Parser) (r : Except Errno (ℕ × UInt32))
    (p' : Parser) : Prop :=
  InitFrame p p' ∧ ∀ n u, r = .ok (n, u) → n = numIbs + ibCount cs ∧ (∀ c ∈ cs, c.Acceptable) ∧
    BoListAfter env cs p.boList p'.boList

theorem ibCount_cons (c : Chunk) (cs : List Chunk) :
    ibCount (c :: cs) = ibCount [c] + ibCount cs := by
  unfold ibCount
  rw [← List.singleton_append, List.countP_append]

theorem parserInitLoop_spec (env : Env) (cs : List Chunk) (hcs : ¬ F → ReachedReadable cs)
    (i numIbs : ℕ) (uf : UInt32) (p : Parser) :
    wp F (parserInitLoop env i cs numIbs uf) (InitPost env cs numIbs p) p := by
  induction cs generalizing i numIbs uf p with
  | nil =>
    refine ⟨.refl p, fun n u hr => ?_⟩
    obtain ⟨rfl, rfl⟩ := Prod.mk.inj (Except.ok.inj hr)
    exact ⟨by simp [ibCount], by simp, rfl⟩
  | cons c cs ih =>
    unfold parserInitLoop
    rw [wp_bind]
    refine wp_mono (parserInitChunk_spec env (fun hF => (hcs hF).1) i numIbs uf p) fun r p₁ hr => ?_
    cases r with
    | error e => exact ⟨hr.1, by simp⟩
    | ok nu =>
      obtain ⟨n, u⟩ := nu
      obtain ⟨hn, hacc, hlist⟩ := hr.2 n u rfl
      refine wp_mono (ih (fun hF => (hcs hF).2 hacc) (i + 1) n u p₁) fun r p' hr' => ?_
      refine ⟨hr.1.trans hr'.1, fun n' u' hok => ?_⟩
      obtain ⟨hn', hall, hafter⟩ := hr'.2 n' u' hok
      refine ⟨?_, List.forall_mem_cons.mpr ⟨hacc, hall⟩, hafter.cons hlist⟩
      rw [hn', hn, ibCount_cons c cs]
      omega

/-- The chunks are there if the parser says so, or the fault of walking them is allowed for. -/
def FiniOk (F : Prop) (p : Parser) : Prop := ¬ F → p.nchunks = 0 ∨ p.chunks.isSome

/-- What the passes after the first rely on, and keep. -/
structure Parsed (req : Request) (p : Parser) : Prop where
  acceptable : ∀ c ∈ req.chunks, c.Acceptable
  ibs : 0 < ibCount req.chunks
  ctx : p.ctx.isSome
  nchunks : p.nchunks = req.chunks.length
  chunks : p.chunks = some req.chunks

theorem Parsed.finiOk {req : Request} {p : Parser} (h : Parsed req p) : FiniOk F p :=
  fun _ => .inr (by simp [h.chunks])

/-- After the first pass. -/
structure Initialized (env : Env) (req : Request) (p : Parser) : Prop extends Parsed req p where
  job : ∃ j, p.job = some j ∧ j.numIbs = ibCount req.chunks ∧ j.ibs = []
  ring : p.ring = none
  mn : p.mn = .null
  list : BoListAfter env req.chunks none p.boList

theorem csParserInit_spec (env : Env) (req : Request) (hne : req.chunks ≠ [])
    (hread : ¬ F → ReachedReadable req.chunks) (hok : ¬ F → env.chunksOk = true) :
    wp F (csParserInit env req) (fun r p => match r with
      | .error _ => FiniOk F p
      | .ok _ => Initialized env req p) Parser.zero := by
  have hlen : req.chunks.length ≠ 0 := by simpa using hne
  unfold csParserInit
  simp only [wp_bind, if_neg hlen, wp_require]
  refine ⟨fun _ => ?_, fun _ _ => .inl rfl⟩
  split
  · exact fun _ => .inl rfl
  · next ctx _ =>
    simp only [wp_bind, wp_modify, wp_require]
    refine ⟨fun _ => ⟨fun _ => ⟨fun _ => ?_, fun h hF => ?_⟩, fun _ _ => .inl rfl⟩,
      fun _ _ => .inl rfl⟩
    · rw [wp_onError, wp_bind]
      refine wp_mono (parserInitLoop_spec env req.chunks hread 0 0 0 _) fun r p hr => ?_
      obtain ⟨⟨l, u, rfl⟩, hr⟩ := hr
      cases r with
      | error e => exact fun _ => .inl rfl
      | ok nu =>
        obtain ⟨n, uf⟩ := nu
        obtain ⟨hn, hall, hlist⟩ := hr n uf rfl
        simp only [jobAlloc, wp_bind, wp_ite]
        split
        · exact fun _ => .inl rfl
        · next hn0 =>
          simp only [wp_require, wp_modify, wp_gets, wp_deref_some]
          have hpos : 0 < ibCount req.chunks := by omega
          refine ⟨fun _ => ⟨fun _ => ?_, fun _ _ => .inl rfl⟩, fun _ _ => .inl rfl⟩
          split
          · exact ⟨⟨hall, hpos, rfl, rfl, rfl⟩, ⟨_, rfl, by simpa using hn, rfl⟩, rfl, rfl, hlist⟩
          · exact ⟨⟨hall, hpos, rfl, rfl, rfl⟩, ⟨_, rfl, by simpa using hn, rfl⟩, rfl, rfl, hlist⟩
    · rw [hok hF] at h
      cases h

/-- The IBs of a request, in order. -/
def reqIbs (cs : List Chunk) : List Ib := (cs.filter (·.chunkId = chunkIdIb)).map ibOfChunk

theorem reqIbs_cons_of_ne {c : Chunk} (cs : List Chunk) (h : c.chunkId ≠ chunkIdIb) :
    reqIbs (c :: cs) = reqIbs cs := by
  simp [reqIbs, h]

theorem reqIbs_cons_of_eq {c : Chunk} (cs : List Chunk) (h : c.chunkId = chunkIdIb) :
    reqIbs (c :: cs) = ibOfChunk c :: reqIbs cs := by
  simp [reqIbs, h]

theorem reqIbs_eq_nil {cs : List Chunk} (h : ibCount cs = 0) : reqIbs cs = [] := by
  have : cs.filter (·.chunkId = chunkIdIb) = [] := by
    simpa [ibCount, List.countP_eq_length_filter] using h
  simp [reqIbs, this]

theorem ibCount_cons_of_ne {c : Chunk} (cs : List Chunk) (h : c.chunkId ≠ chunkIdIb) :
    ibCount (c :: cs) = ibCount cs := by simp [ibCount, h]

theorem ibCount_cons_of_eq {c : Chunk} (cs : List Chunk) (h : c.chunkId = chunkIdIb) :
    ibCount (c :: cs) = ibCount cs + 1 := by simp [ibCount, h]

/-- One IB chunk appends its IB to the job and settles the ring. -/
theorem ibFillChunk_spec (env : Env) (i : ℕ) {c : Chunk} (hc : ¬ F → 8 ≤ c.copiedDw) {p : Parser}
    {job : Job} (hjob : p.job = some job) (hctx : p.ctx.isSome) :
    wp F (ibFillChunk env i c) (fun r p' =>
      (∃ job' ring', p' = { p with job := job', ring := ring' }) ∧
      (r = .ok () → p'.ring.isSome ∧ ∃ b, p'.job = some
        { job with preamblePresent := b, ibs := job.ibs ++ [ibOfChunk c] })) p := by
  obtain ⟨ctx, hctx'⟩ := Option.isSome_iff_exists.mp hctx
  unfold ibFillChunk
  simp only [wp_bind, wp_gets]
  refine wp_deref_of hctx' (wp_readWord_of hc (by omega) (wp_readWord_of hc (by omega)
    (wp_readWord_of hc (by omega) ?_)))
  dsimp only
  rw [wp_outcome]
  split
  · exact ⟨⟨p.job, p.ring, rfl⟩, by simp⟩
  · next ring _ =>
    refine wp_readWord_of hc (by omega) ?_
    -- the preamble flag is the only thing that may have changed so far
    have hflag : wp F (notePreamble (c.data 1)) (fun r p' => r = .ok () ∧ ∃ b,
        p' = { p with job := some { job with preamblePresent := b } }) p := by
      unfold notePreamble
      rw [wp_ite]
      split
      · exact ⟨rfl, true, by simp [hjob]⟩
      · exact ⟨rfl, job.preamblePresent, by rw [← hjob]⟩
    refine wp_mono hflag fun r p₁ hr => ?_
    obtain ⟨rfl, b, rfl⟩ := hr
    simp only [wp_require, wp_modify, wp_outcome]
    refine ⟨fun _ => ?_, fun _ => ⟨⟨_, p.ring, rfl⟩, by simp⟩⟩
    split
    · exact ⟨⟨_, _, rfl⟩, by simp⟩
    · refine wp_readQword_of hc (by omega) (wp_readWord_of hc (by omega) ?_)
      exact ⟨⟨_, _, rfl⟩, fun _ => ⟨rfl, b, by simp [ibOfChunk]⟩⟩

/-- What the IB pass leaves, from a state with the job `job`. -/
def FillPost (cs : List Chunk) (job : Job) (p : Parser) (r : Except Errno Unit) (p' : Parser) :
    Prop :=
  (∃ job' ring', p' = { p with job := job', ring := ring' }) ∧
    (r = .ok () → ∃ job', p'.job = some job' ∧ job'.ibs = job.ibs ++ reqIbs cs ∧
      (0 < ibCount cs ∨ p.ring.isSome → p'.ring.isSome))

theorem ibFillLoop_spec (env : Env) (cs : List Chunk)
    (hcs : ¬ F → ∀ c ∈ cs, c.chunkId = chunkIdIb → 8 ≤ c.copiedDw) (i j : ℕ) (p : Parser)
    (job : Job) (hjob : p.job = some job) (hctx : p.ctx.isSome)
    (hn : job.numIbs = j + ibCount cs) :
    wp F (ibFillLoop env i cs j) (FillPost cs job p) p := by
  induction cs generalizing i j p job with
  | nil =>
    exact ⟨⟨p.job, p.ring, rfl⟩, fun _ => ⟨job, hjob, by simp [reqIbs], by simp [ibCount]⟩⟩
  | cons c cs ih =>
    have hcs' : ¬ F → ∀ c ∈ cs, c.chunkId = chunkIdIb → 8 ≤ c.copiedDw := fun hF d hd =>
      hcs hF d (List.mem_cons_of_mem _ hd)
    unfold ibFillLoop
    simp only [wp_bind, wp_gets, hjob, wp_deref_some, wp_ite]
    split
    · next hle =>
      have h0 : ibCount (c :: cs) = 0 := by omega
      exact ⟨⟨p.job, p.ring, rfl⟩, fun _ => ⟨job, hjob, by simp [reqIbs_eq_nil h0], by simp [h0]⟩⟩
    · split
      · next hid =>
        rw [ibCount_cons_of_ne cs hid] at hn
        refine wp_mono (ih hcs' (i + 1) j p job hjob hctx hn) fun r p' hr => ?_
        unfold FillPost
        rw [reqIbs_cons_of_ne cs hid, ibCount_cons_of_ne cs hid]
        exact hr
      · next hid =>
        have hid : c.chunkId = chunkIdIb := by simpa using hid
        rw [ibCount_cons_of_eq cs hid] at hn
        refine wp_mono (ibFillChunk_spec env i (fun hF => hcs hF c List.mem_cons_self hid) hjob
          hctx) fun r p₁ hr => ?_
        obtain ⟨⟨job₁, ring₁, rfl⟩, hr⟩ := hr
        cases r with
        | error e => exact ⟨⟨_, _, rfl⟩, by simp⟩
        | ok _ =>
          obtain ⟨hring, b, hb⟩ := hr rfl
          refine wp_mono (ih hcs' (i + 1) (j + 1) _ _ hb hctx (by simp; omega)) fun r p' hr => ?_
          obtain ⟨⟨job', ring', rfl⟩, hok⟩ := hr
          refine ⟨⟨job', ring', rfl⟩, fun hr => ?_⟩
          obtain ⟨job'', hj, hibs, hring'⟩ := hok hr
          refine ⟨job'', hj, ?_, fun _ => hring' (.inr hring)⟩
          rw [hibs, reqIbs_cons_of_eq cs hid]
          simp

/-- After the IB pass. -/
structure Filled (env : Env) (req : Request) (p : Parser) : Prop extends Parsed req p where
  job : ∃ j, p.job = some j ∧ j.ibs = reqIbs req.chunks
  ring : p.ring.isSome
  mn : p.mn = .null
  list : BoListAfter env req.chunks none p.boList

theorem wp_parserChunks {req : Request} {p : Parser} (h : Parsed req p)
    {Q : Except Errno (List Chunk) → Parser → Prop} :
    wp F parserChunks Q p = Q (.ok req.chunks) p := by
  have hlen : p.nchunks ≠ 0 := by
    have hne : req.chunks ≠ [] := by rintro he; have := h.ibs; simp [he, ibCount] at this
    rw [h.nchunks]
    simpa using hne
  simp [parserChunks, hlen, h.chunks]

theorem csIbFill_spec (env : Env) {req : Request} {p : Parser} (h : Initialized env req p)
    (hibs : ¬ F → ∀ c ∈ req.chunks, c.chunkId = chunkIdIb → 8 ≤ c.copiedDw) :
    wp F (csIbFill env) (fun r p' => Parsed req p' ∧ (r = .ok () → Filled env req p')) p := by
  obtain ⟨job, hjob, hn, hnil⟩ := h.job
  unfold csIbFill
  rw [wp_bind, wp_parserChunks h.toParsed]
  simp only [wp_bind]
  refine wp_mono (ibFillLoop_spec env req.chunks hibs 0 0 p job hjob h.ctx (by omega))
    fun r p' hr => ?_
  obtain ⟨⟨job', ring', rfl⟩, hok⟩ := hr
  have hparsed : Parsed req { p with job := job', ring := ring' } :=
    ⟨h.acceptable, h.ibs, h.ctx, h.nchunks, h.chunks⟩
  cases r with
  | error e => exact ⟨hparsed, by simp⟩
  | ok _ =>
    obtain ⟨job'', hj, hibs', hring⟩ := hok rfl
    obtain ⟨ring, hring⟩ := Option.isSome_iff_exists.mp (hring (.inl h.ibs))
    obtain ⟨ctx, hctx⟩ := Option.isSome_iff_exists.mp h.ctx
    obtain rfl : ring' = some ring := hring
    simp only [wp_gets, wp_deref_some]
    refine wp_deref_of hctx ?_
    dsimp only
    rw [wp_outcome]
    exact ⟨hparsed, fun _ => ⟨hparsed, ⟨job'', hj, by simpa [hnil] using hibs'⟩, rfl, h.mn, h.list⟩⟩

/-- After the buffer pass. -/
structure Listed (env : Env) (req : Request) (p : Parser) : Prop extends Parsed req p where
  job : ∃ j, p.job = some j ∧ j.ibs = reqIbs req.chunks
  ring : p.ring.isSome
  list : p.boList.isSome
  mn : p.mn = .errPtr → env.mnOk = false ∧ MayList req

/-- The list the buffer pass works on: one with userptr BOs comes from the handle, or from the
last `BO_HANDLES` chunk and is not empty. -/
theorem parserBoList_spec (env : Env) {req : Request} {p : Parser} (h : Filled env req p) :
    wp F (parserBoList env req) (fun r p' => ∃ l, p' = { p with boList := l } ∧
      (r = .ok () → ∃ list, l = some list ∧
        (list.firstUserptr ≠ list.numEntries → MayList req))) p := by
  have hlist := h.list
  unfold parserBoList
  simp only [wp_bind, wp_gets, wp_ite]
  split
  · next hne =>
    split
    · exact ⟨p.boList, rfl, by simp⟩
    · next hnone =>
      have hnone : p.boList = none := by simpa using hnone
      have hlast : lastBoHandles req.chunks = none := by
        unfold BoListAfter at hlist
        cases hl : lastBoHandles req.chunks with
        | none => rfl
        | some c =>
          rw [hl, hnone] at hlist
          obtain ⟨_, _, _, hk⟩ := hlist
          cases hk
      rw [wp_outcome]
      split
      · exact ⟨p.boList, rfl, by simp⟩
      · next list _ =>
        exact ⟨some list, rfl, fun _ => ⟨list, rfl, fun _ =>
          ⟨h.acceptable, h.ibs, .inl ⟨hne, hlast⟩⟩⟩⟩
  · next hzero =>
    have hzero : req.boListHandle = 0 := by simpa using hzero
    split
    · simp only [wp_outcome, wp_modify]
      split
      · exact ⟨p.boList, rfl, by simp⟩
      · exact ⟨_, rfl, fun _ => ⟨_, rfl, by simp [boListCreate]⟩⟩
    · next hsome =>
      refine ⟨p.boList, rfl, fun _ => ?_⟩
      unfold BoListAfter at hlist
      cases hl : lastBoHandles req.chunks with
      | none => rw [hl] at hlist; simp [hlist] at hsome
      | some c =>
        rw [hl] at hlist
        obtain ⟨_, k, _, hk⟩ := hlist
        refine ⟨_, hk, fun huser => ⟨h.acceptable, h.ibs, .inr ⟨hzero, c, hl, ?_⟩⟩⟩
        rintro hc0
        simp [boListCreate, hc0] at huser

theorem csParserBos_spec (env : Env) {req : Request} {p : Parser} (h : Filled env req p) :
    wp F (csParserBos env req) (fun r p' => Parsed req p' ∧ (r = .ok () → Listed env req p')) p := by
  obtain ⟨job, hjob, hibs⟩ := h.job
  unfold csParserBos
  rw [wp_bind]
  refine wp_mono (parserBoList_spec env h) fun r p₁ hr => ?_
  obtain ⟨l, rfl, hr⟩ := hr
  have hkeep : ∀ (l : Option BoList) (m : MnPtr) (j : Option Job),
      Parsed req { p with boList := l, mn := m, job := j } := fun _ _ _ =>
    ⟨h.acceptable, h.ibs, h.ctx, h.nchunks, h.chunks⟩
  cases r with
  | error e => exact ⟨hkeep l p.mn p.job, by simp⟩
  | ok _ =>
    obtain ⟨list, rfl, huser⟩ := hr rfl
    simp only [wp_bind, wp_gets, wp_deref_some]
    have hmn : wp F (parserMn env list) (fun r p' => r = .ok () ∧ ∃ m,
        p' = { p with boList := some list, mn := m } ∧
          (m = .errPtr → env.mnOk = false ∧ MayList req)) { p with boList := some list } := by
      unfold parserMn
      rw [wp_ite]
      split
      · next hne =>
        refine ⟨rfl, _, rfl, fun hm => ⟨?_, huser hne⟩⟩
        cases hok : env.mnOk with
        | false => rfl
        | true => simp [hok] at hm
      · exact ⟨rfl, p.mn, rfl, fun hm => by rw [h.mn] at hm; cases hm⟩
    refine wp_mono hmn fun r p₂ hr => ?_
    obtain ⟨rfl, m, rfl, hm⟩ := hr
    simp only [wp_outcome]
    split
    · exact ⟨hkeep _ m p.job, by simp⟩
    · split
      · exact ⟨hkeep _ m p.job, fun _ => ⟨hkeep _ m p.job, ⟨job, hjob, hibs⟩, h.ring, rfl, hm⟩⟩
      · next uf _ =>
        simp only [wp_bind, wp_gets]
        refine wp_deref_of hjob ?_
        simp only [wp_modify, wp_outcome]
        exact ⟨hkeep _ m _, fun _ => ⟨hkeep _ m _, ⟨_, rfl, hibs⟩, h.ring, rfl, hm⟩⟩

section Dependencies
variable {p : Parser} {job : Job} {c : Chunk}

theorem fenceDepLoop_spec (env : Env) (k n i : ℕ) (hjob : p.job = some job)
    (hn : 6 * (i + n) ≤ c.copiedDw) :
    wp F (fenceDepLoop env k c n i) (fun _ p' => p' = p) p := by
  induction n generalizing i with
  | zero => exact rfl
  | succ n ih =>
    have hc : ¬ F → 6 * i + 6 ≤ c.copiedDw := fun _ => by omega
    unfold fenceDepLoop
    rw [wp_bind]
    refine wp_readWord_of hc (by omega) ?_
    dsimp only
    split
    · exact rfl
    · simp only [wp_bind]
      refine wp_readWord_of hc (by omega) (wp_readWord_of hc (by omega)
        (wp_readWord_of hc (by omega) ?_))
      simp only [wp_outcome]
      split
      · trivial
      · refine wp_readQword_of hc (by omega) ?_
        simp only
        split
        · trivial
        · next fence _ =>
          have hadd : wp F (addFenceDep env k i fence) (fun _ p' => p' = p) p := by
            unfold addFenceDep
            rw [wp_ite]
            split
            · simp only [wp_bind, wp_gets]
              exact wp_deref_of hjob (by rw [wp_outcome])
            · exact rfl
          refine wp_mono hadd fun r p' hr => ?_
          subst hr
          cases r with
          | error e => exact rfl
          | ok _ => exact ih (i + 1) (by omega)

theorem syncobjInLoop_spec (env : Env) (k n i : ℕ) (hjob : p.job = some job)
    (hn : i + n ≤ c.copiedDw) :
    wp F (syncobjInLoop env k c n i) (fun _ p' => p' = p) p := by
  induction n generalizing i with
  | zero => exact rfl
  | succ n ih =>
    unfold syncobjInLoop
    rw [wp_bind]
    refine wp_readWord_of (n := i + 1) (fun _ => by omega) (by omega) ?_
    simp only [wp_bind, wp_outcome, wp_gets]
    split
    · trivial
    · refine wp_deref_of hjob ?_
      simp only
      split
      · trivial
      · exact ih (i + 1) (by omega)

theorem syncobjOutLoop_spec (env : Env) (k n i : ℕ) (hn : i + n ≤ c.copiedDw) (m : ℕ) :
    wp F (syncobjOutLoop env k c n i) (fun _ p' => ∃ m', p' = { p with numPostDepSyncobjs := m' })
      { p with numPostDepSyncobjs := m } := by
  induction n generalizing i m with
  | zero => exact ⟨m, rfl⟩
  | succ n ih =>
    unfold syncobjOutLoop
    rw [wp_bind]
    refine wp_readWord_of (n := i + 1) (fun _ => by omega) (by omega) ?_
    simp only [wp_bind, wp_require, wp_modify]
    exact ⟨fun _ => ih (i + 1) (by omega) (m + 1), fun _ => ⟨m, rfl⟩⟩

/-- The dependency pass reads only words that were copied: its counts are computed from the
same 32-bit product as the copy. -/
theorem csDependency_spec (env : Env) (k : ℕ) (hjob : p.job = some job) :
    wp F (csDependency env k c) (fun _ p' => ∃ m, p' = { p with numPostDepSyncobjs := m }) p := by
  have h24 : 6 * (0 + numDeps c 24) ≤ c.copiedDw := by unfold numDeps Chunk.copiedDw; omega
  have h4 : 0 + numDeps c 4 ≤ c.copiedDw := by unfold numDeps Chunk.copiedDw; omega
  have hrefl : ∀ p' : Parser, p' = p → ∃ m, p' = { p with numPostDepSyncobjs := m } := fun p' h =>
    ⟨p.numPostDepSyncobjs, h⟩
  unfold csDependency
  simp only [wp_ite]
  split
  · exact wp_mono (fenceDepLoop_spec env k _ 0 hjob h24) fun _ p' h => hrefl p' h
  · split
    · exact wp_mono (syncobjInLoop_spec env k _ 0 hjob h4) fun _ p' h => hrefl p' h
    · split
      · simp only [wp_bind, wp_modify, wp_require]
        exact ⟨fun _ => syncobjOutLoop_spec env k _ 0 h4 0, fun _ => ⟨0, rfl⟩⟩
      · exact hrefl p rfl

theorem csDependencies_spec (env : Env) (k : ℕ) (cs : List Chunk) (hjob : p.job = some job) :
    wp F (csDependencies env k cs) (fun _ p' => ∃ m, p' = { p with numPostDepSyncobjs := m }) p := by
  induction cs generalizing k p with
  | nil => exact ⟨p.numPostDepSyncobjs, rfl⟩
  | cons c cs ih =>
    unfold csDependencies
    rw [wp_bind]
    refine wp_mono (csDependency_spec env k hjob) fun r p' hr => ?_
    obtain ⟨m, rfl⟩ := hr
    cases r with
    | error e => exact ⟨m, rfl⟩
    | ok _ =>
      refine wp_mono (ih (k + 1) hjob) fun r p'' hr => ?_
      obtain ⟨m', rfl⟩ := hr
      exact ⟨m', rfl⟩

end Dependencies

/-- The last passes: the job that is pushed holds the request's IBs. -/
theorem csSubmit_spec (env : Env) {req : Request} {p : Parser} (h : Listed env req p)
    (hmn : ¬ F → env.mnOk = true ∨ ¬ MayList req) :
    wp F (csSubmit env) (fun r p' => Parsed req p' ∧
      ∀ job, r = .ok job → job.ibs = reqIbs req.chunks) p := by
  obtain ⟨job, hjob, hibs⟩ := h.job
  obtain ⟨ring, hring⟩ := Option.isSome_iff_exists.mp h.ring
  obtain ⟨ctx, hctx⟩ := Option.isSome_iff_exists.mp h.ctx
  obtain ⟨list, hlist⟩ := Option.isSome_iff_exists.mp h.list
  have hkeep : Parsed req { p with job := none } :=
    ⟨h.acceptable, h.ibs, h.ctx, h.nchunks, h.chunks⟩
  unfold csSubmit
  simp only [wp_bind, wp_gets]
  refine wp_deref_of hring (wp_deref_of hctx ?_)
  simp only [wp_modify]
  refine wp_deref_of hjob ?_
  simp only [wp_outcome]
  split
  · exact ⟨hkeep, by simp⟩
  · have hlock : wp F (mnLock p.mn) (fun r p' => r = .ok () ∧ p' = { p with job := none })
        { p with job := none } := by
      cases hm : p.mn with
      | errPtr =>
        show F
        by_contra hF
        obtain ⟨hok, hmay⟩ := h.mn hm
        rcases hmn hF with h' | h'
        · rw [hok] at h'; cases h'
        · exact h' hmay
      | null => exact ⟨rfl, rfl⟩
      | mn => exact ⟨rfl, rfl⟩
    refine wp_mono hlock fun r p' hr => ?_
    obtain ⟨rfl, rfl⟩ := hr
    dsimp only
    refine wp_deref_of hlist ?_
    simp only [wp_require]
    refine ⟨fun _ => ?_, fun _ => ⟨hkeep, by simp⟩⟩
    split
    · exact ⟨hkeep, by simp⟩
    · refine ⟨hkeep, fun job' hj => ?_⟩
      obtain rfl := Except.ok.inj hj
      exact hibs

/-- All passes of a request that names at least one chunk. -/
theorem csPasses_spec (env : Env) {req : Request} (hne : req.chunks ≠ [])
    (hreq : ¬ F → RequestOk req) (hok : ¬ F → env.chunksOk = true)
    (hmn : ¬ F → env.mnOk = true ∨ ¬ MayList req) :
    wp F (csPasses env req) (fun r p => FiniOk F p ∧
      ∀ job, r = .ok job → job.ibs = reqIbs req.chunks) Parser.zero := by
  unfold csPasses
  rw [wp_bind]
  refine wp_mono (csParserInit_spec env req hne (fun hF => (hreq hF).readable) hok)
    fun r p hr => ?_
  cases r with
  | error e => exact ⟨hr, by simp⟩
  | ok _ =>
    have hibs : ¬ F → ∀ c ∈ req.chunks, c.chunkId = chunkIdIb → 8 ≤ c.copiedDw := fun hF =>
      (hreq hF).ibs hr.acceptable
    rw [wp_bind]
    refine wp_mono (csIbFill_spec env hr hibs) fun r p hr => ?_
    cases r with
    | error e => exact ⟨hr.1.finiOk, by simp⟩
    | ok _ =>
      rw [wp_bind]
      refine wp_mono (csParserBos_spec env (hr.2 rfl)) fun r p hr => ?_
      cases r with
      | error e => exact ⟨hr.1.finiOk, by simp⟩
      | ok _ =>
        have hlisted := hr.2 rfl
        obtain ⟨job, hjob, hjobIbs⟩ := hlisted.job
        obtain ⟨ring, hring⟩ := Option.isSome_iff_exists.mp hlisted.ring
        rw [wp_bind, wp_parserChunks hlisted.toParsed]
        simp only [wp_bind]
        refine wp_mono (csDependencies_spec env 0 req.chunks hjob) fun r p' hr => ?_
        obtain ⟨m, rfl⟩ := hr
        have hlisted' : Listed env req { p with numPostDepSyncobjs := m } :=
          ⟨⟨hlisted.acceptable, hlisted.ibs, hlisted.ctx, hlisted.nchunks, hlisted.chunks⟩,
            hlisted.job, hlisted.ring, hlisted.list, hlisted.mn⟩
        cases r with
        | error e => exact ⟨hlisted'.finiOk, by simp⟩
        | ok _ =>
          have htrace : wp F traceCs (fun r p' => r = .ok () ∧
              p' = { p with numPostDepSyncobjs := m }) { p with numPostDepSyncobjs := m } := by
            unfold traceCs
            simp only [wp_bind, wp_gets]
            refine wp_deref_of hjob ?_
            simp only [wp_ite]
            split
            · simp only [wp_bind, wp_gets]
              refine wp_deref_of hring ?_
              exact ⟨rfl, rfl⟩
            · exact ⟨rfl, rfl⟩
          refine wp_mono htrace fun r p' hr => ?_
          obtain ⟨rfl, rfl⟩ := hr
          have hvm : wp F (csIbVmChunk env) (fun _ p' =>
              p' = { p with numPostDepSyncobjs := m }) { p with numPostDepSyncobjs := m } := by
            unfold csIbVmChunk
            simp only [wp_bind, wp_gets]
            refine wp_deref_of hjob ?_
            simp only [wp_outcome]
            cases env.boVmUpdatePte with
            | error e => trivial
            | ok _ => cases env.reserveShared with
              | error e => trivial
              | ok _ => trivial
          refine wp_mono hvm fun r p' hr => ?_
          subst hr
          cases r with
          | error e => exact ⟨hlisted'.finiOk, by simp⟩
          | ok _ =>
            refine wp_mono (csSubmit_spec env hlisted' hmn) fun r p' hr => ?_
            exact ⟨hr.1.finiOk, hr.2⟩

theorem csParserFini_spec {p : Parser} (h : FiniOk F p) :
    wp F csParserFini (fun _ _ => True) p := by
  unfold csParserFini parserChunks
  simp only [wp_bind, wp_gets, wp_ite]
  split
  · trivial
  · next hn =>
    cases hc : p.chunks with
    | some cs => trivial
    | none =>
      show F
      by_contra hF
      rcases h hF with h' | h'
      · exact hn h'
      · simp [hc] at h'

end Gsgpu.Cs
