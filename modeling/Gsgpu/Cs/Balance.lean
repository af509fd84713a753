import Gsgpu.Cs.References
import Gsgpu.Cs.Passes
import Gsgpu.Lib.Ledger
import Mathlib.Tactic.Abel
import Mathlib.Tactic.Ring

/-! Which requests leave the reference counts as they were. The references that the parser's
pointers do not account for are those that `gsgpu_cs_parser_fini` does not give back. -/
namespace Gsgpu.Cs.References

open Prog Ledger

/-- What `gsgpu_cs_parser_fini` would leave. -/
def State.extra (s : State) : Obj → ℤ := s.refs - s.held

variable {F : Prop} {env : RefEnv} {s s' : State} {i k : ℕ} {c : Chunk}

section Steps

@[simp] theorem wp_take {o : Obj} {n : ℤ} {Q : Except Errno Unit → State → Prop} :
    wp F (take o n) Q s = Q (.ok ()) (s.add o n) := rfl

@[simp] theorem wp_put {o : Obj} {Q : Except Errno Unit → State → Prop} :
    wp F (put o) Q s = Q (.ok ()) (s.add o (-1)) := rfl

@[simp] theorem wp_setOwn {f : Owned → Owned} {Q : Except Errno Unit → State → Prop} :
    wp F (setOwn f) Q s = Q (.ok ()) (s.setOwn f) := rfl

def State.setParser (s : State) (f : Parser → Parser) : State := { s with parser := f s.parser }

@[simp] theorem wp_run_modify {f : Parser → Parser} {Q : Except Errno Unit → State → Prop} :
    wp F (run (modify f)) Q s = Q (.ok ()) (s.setParser f) := rfl

@[simp] theorem wp_run_gets {α : Type} {f : Parser → α} {Q : Except Errno α → State → Prop} :
    wp F (run (gets f)) Q s = Q (.ok (f s.parser)) s := rfl

@[simp] theorem wp_run_deref {α : Type} {f : Fault} {o : Option α}
    {Q : Except Errno α → State → Prop} :
    wp True (run (deref f o)) Q s = (∀ a, o = some a → Q (.ok a) s) := by
  cases o with
  | none => exact propext ⟨fun _ => nofun, fun _ => trivial⟩
  | some a => exact propext ⟨fun h _ ha => Option.some.inj ha ▸ h, fun h => h a rfl⟩

@[simp] theorem wp_run_readWord {Q : Except Errno UInt32 → State → Prop} :
    wp True (run (readWord c i)) Q s = (i < c.copiedDw → Q (.ok (c.data i)) s) := by
  rw [run, wp_zoom, wp_readWord]
  exact propext ⟨fun h => h.1, fun h => ⟨h, fun _ => trivial⟩⟩

@[simp] theorem wp_run_readQword {Q : Except Errno ℕ → State → Prop} :
    wp True (run (readQword c i)) Q s = (i < c.copiedDw → i + 1 < c.copiedDw →
      Q (.ok ((c.data (i + 1)).toNat * 2 ^ 32 + (c.data i).toNat)) s) := by
  simp only [run, wp_zoom, readQword, wp_bind, wp_readWord, wp_pure]
  exact propext ⟨fun h h₁ h₂ => (h.1 h₁).1 h₂, fun h =>
    ⟨fun h₁ => ⟨fun h₂ => h h₁ h₂, fun _ => trivial⟩, fun _ => trivial⟩⟩

end Steps

section Account

variable (s) (o : Obj) (n : ℤ) (f : Owned → Owned) (g : Parser → Parser)

@[simp] theorem own_add : (s.add o n).own = s.own := rfl

@[simp] theorem parser_add : (s.add o n).parser = s.parser := rfl

@[simp] theorem own_setOwn : (s.setOwn f).own = f s.own := rfl

@[simp] theorem parser_setOwn : (s.setOwn f).parser = s.parser := rfl

@[simp] theorem own_set (p : Parser) : (parserOf.set p s).own = s.own := rfl

@[simp] theorem parser_set (p : Parser) : (parserOf.set p s).parser = p := rfl

@[simp] theorem set_get : parserOf.set (parserOf.get s) s = s := rfl

@[simp] theorem own_setParser : (s.setParser g).own = s.own := rfl

@[simp] theorem parser_setParser : (s.setParser g).parser = g s.parser := rfl

@[simp] theorem extra_add : (s.add o n).extra = s.extra + Pi.single o n := by
  show s.refs + Pi.single o n - s.held = s.refs - s.held + Pi.single o n
  abel

/-- What the account has of a pointer. -/
abbrev pointer {α : Type} (o : α → Obj) (p : Option α) : Obj → ℤ := p.elim 0 fun a => Pi.single (o a) 1

@[simp] theorem extra_setParser_uf (u : Option Bo) :
    (s.setParser fun p => { p with ufRobj := u }).extra = s.extra := rfl

@[simp] theorem extra_setParser_boList (l : Option BoList) :
    (s.setParser fun p => { p with boList := l }).extra = s.extra := rfl

@[simp] theorem extra_setOwn_uf (v : Option ℕ) :
    (s.setOwn fun o => { o with ufRobj := v }).extra =
      s.extra + pointer .bo s.own.ufRobj - pointer .bo v := by
  simp only [State.extra, State.held, State.setOwn, pointer]
  abel

@[simp] theorem extra_setOwn_boList (v : Option ListId) :
    (s.setOwn fun o => { o with boList := v }).extra =
      s.extra + pointer .boList s.own.boList - pointer .boList v := by
  simp only [State.extra, State.held, State.setOwn, pointer]
  abel

@[simp] theorem extra_setOwn_partialKdata (m : ℕ) :
    (s.setOwn fun o => { o with partialKdata := m }).extra = s.extra := rfl

end Account

/-- Of the parser the account has the chunks and the job. -/
theorem extra_set {p : Parser} (hchunks : p.chunks = s.parser.chunks)
    (hnchunks : p.nchunks = s.parser.nchunks) :
    (parserOf.set p s).extra = s.extra + Pi.single .job (s.parser.job.isSome.toNat : ℤ) -
      Pi.single .job (p.job.isSome.toNat : ℤ) := by
  simp only [State.extra, State.held, parserOf, hchunks, hnchunks]
  abel

/-- Code that takes no reference keeps the pointers that count. -/
structure Quiet (p p' : Parser) : Prop where
  chunks : p'.chunks = p.chunks
  nchunks : p'.nchunks = p.nchunks
  job : p'.job.isSome = p.job.isSome
  ufRobj : p'.ufRobj = p.ufRobj
  boList : p'.boList = p.boList

theorem Quiet.refl (p : Parser) : Quiet p p := ⟨rfl, rfl, rfl, rfl, rfl⟩

theorem Quiet.trans {p p' p'' : Parser} (h : Quiet p p') (h' : Quiet p' p'') : Quiet p p'' :=
  ⟨h'.chunks.trans h.chunks, h'.nchunks.trans h.nchunks, h'.job.trans h.job,
    h'.ufRobj.trans h.ufRobj, h'.boList.trans h.boList⟩

theorem Quiet.extra {p : Parser} (h : Quiet s.parser p) : (parserOf.set p s).extra = s.extra := by
  rw [extra_set h.chunks h.nchunks, h.job, add_sub_cancel_right]

/-- The data of one more chunk. -/
theorem extra_setOwn_kdata {cs : List Chunk} (hchunks : s.parser.chunks = some cs)
    (hlt : s.own.kdata.length < s.parser.nchunks) (n m : ℕ) :
    (s.setOwn fun o => { o with kdata := o.kdata ++ [n], partialKdata := m }).extra =
      s.extra - Pi.single .memory (n : ℤ) := by
  have htake : (s.own.kdata ++ [n]).take s.parser.nchunks = s.own.kdata ++ [n] :=
    List.take_of_length_le (by simpa using Nat.succ_le_of_lt hlt)
  have htake' : s.own.kdata.take s.parser.nchunks = s.own.kdata := List.take_of_length_le hlt.le
  have hsum : ((s.own.kdata ++ [n]).sum + cs.length : ℕ) =
      ((s.own.kdata.sum + cs.length : ℕ) : ℤ) + (n : ℤ) := by
    simp only [List.sum_append, List.sum_singleton]
    push_cast
    ring
  simp only [State.extra, State.held, State.setOwn, hchunks, Option.elim_some, htake, htake', hsum,
    Pi.single_add]
  abel

/-- The user fence of a chunk is accepted. -/
def FenceOk (env : Env) (i : ℕ) (c : Chunk) : Prop :=
  ∃ bo, env.gemObjectLookup i (c.data 0) = some bo ∧ bo.size = pageSize ∧
    ufEnd (c.data 1) ≤ bo.size ∧ bo.usermm = false

/-- The list of a chunk is created. -/
def BoHandlesOk (env : Env) (i : ℕ) (c : Chunk) : Prop :=
  env.createListEntryArray i (c.data 2) (c.data 3)
    ((c.data 5).toNat * 2 ^ 32 + (c.data 4).toNat) = .ok () ∧
  ∃ n, env.boListUserptrs i (c.data 2) = .ok n

/-- `gsgpu_cs_parser_init` copies a chunk in. -/
def Copied (env : Env) (i : ℕ) : Prop :=
  env.copyChunk i = true ∧ env.kdataOk i = true ∧ env.copyData i = true

/-- `gsgpu_cs_parser_init` finds the BO that a chunk names for the user fence. -/
def FenceFound (env : Env) (i : ℕ) (c : Chunk) : Prop :=
  Copied env i ∧ c.chunkId = chunkIdFence ∧ 8 ≤ c.lengthDw.toNat * 4 ∧
    (env.gemObjectLookup i (c.data 0)).isSome = true

/-- `gsgpu_cs_parser_init` gets past a chunk. -/
def ChunkOk (env : Env) (i : ℕ) (c : Chunk) : Prop :=
  Copied env i ∧ (c.chunkId = chunkIdIb ∨
    c.chunkId = chunkIdFence ∧ 8 ≤ c.lengthDw.toNat * 4 ∧ FenceOk env i c ∨
    c.chunkId = chunkIdBoHandles ∧ 24 ≤ c.lengthDw.toNat * 4 ∧ BoHandlesOk env i c ∨
    c.chunkId = chunkIdDependencies ∨ c.chunkId = chunkIdSyncobjIn ∨ c.chunkId = chunkIdSyncobjOut)

def IsOk {ε α : Type} : Except ε α → Prop
  | .ok _ => True
  | .error _ => False

/-- What a step of the first pass loses, which is nothing that a handle names. -/
def Loses (s s' : State) (P : Prop) : Prop :=
  ∃ lost, s'.extra = s.extra + lost ∧ Lost lost P ∧ ∀ h, lost (.boList (.handle h)) = 0

theorem Loses.congr {P Q : Prop} (h : Loses s s' P) (hPQ : P ↔ Q) : Loses s s' Q := by
  obtain ⟨lost, hextra, hlost, hzero⟩ := h
  exact ⟨lost, hextra, hlost.congr hPQ, hzero⟩

theorem Loses.trans {t : State} {P Q : Prop} (h : Loses s t P) (h' : Loses t s' Q) :
    Loses s s' (P ∨ Q) := by
  obtain ⟨a, ha, hlost, hzero⟩ := h
  obtain ⟨b, hb, hlost', hzero'⟩ := h'
  refine ⟨a + b, by rw [hb, ha, add_assoc], hlost.add hlost', fun l => ?_⟩
  rw [Pi.add_apply, hzero, hzero', add_zero]

theorem Loses.none {P : Prop} (h : s'.extra = s.extra) (hP : ¬ P) : Loses s s' P :=
  ⟨0, by rw [h, add_zero], .none hP, fun _ => rfl⟩

/-- What `gsgpu_cs_user_fence_chunk` leaves. -/
structure UserFencePost (env : Env) (i : ℕ) (c : Chunk) (s : State) (r : Except Errno UInt32)
    (s' : State) : Prop where
  ok : IsOk r ↔ FenceOk env i c
  parser : s'.parser = { s.parser with ufRobj := s'.parser.ufRobj }
  own : s'.own = { s.own with ufRobj := s'.own.ufRobj }
  found : IsOk r → s'.own.ufRobj.isSome = true ∧ s'.parser.ufRobj.isSome = true
  lost : Loses s s' (s.own.ufRobj.isSome ∧ (env.gemObjectLookup i (c.data 0)).isSome)

theorem csUserFenceChunk_balance :
    wp True (csUserFenceChunk env i c) (UserFencePost env.toEnv i c s) s := by
  have hlost : ∀ bo : Bo, env.gemObjectLookup i (c.data 0) = some bo → ∀ s' : State,
      s'.extra = s.extra + pointer .bo s.own.ufRobj →
      Loses s s' (s.own.ufRobj.isSome ∧ (env.gemObjectLookup i (c.data 0)).isSome) := by
    intro bo hbo s' hs'
    refine ⟨_, hs', (Lost.pointer _ _).congr (by simp [hbo]), fun h => ?_⟩
    cases s.own.ufRobj with
    | none => rfl
    | some id => exact Pi.single_eq_of_ne (i := Obj.bo id) (by simp) 1
  simp only [csUserFenceChunk, wp_bind, wp_run_readWord]
  intro _
  split
  · next hnone =>
    refine ⟨⟨nofun, ?_⟩, rfl, rfl, nofun, .none rfl (by simp [hnone])⟩
    rintro ⟨bo, hbo, -⟩
    rw [hnone] at hbo
    cases hbo
  · next bo hbo =>
    simp only [wp_bind, wp_take, wp_put, wp_setOwn, wp_run_modify, wp_run_readWord, wp_ite, unrefUf,
      wp_fail, wp_pure]
    split
    · next hsize =>
      refine ⟨⟨nofun, ?_⟩, rfl, rfl, nofun, hlost bo hbo _ ?_⟩
      · rintro ⟨bo', hbo', hsize', -⟩
        rw [hbo] at hbo'
        cases hbo'
        exact hsize hsize'
      · simp [pointer, Pi.single_neg]
        abel
    · next hsize =>
      intro _
      split
      · next hbad =>
        refine ⟨⟨nofun, ?_⟩, rfl, rfl, nofun, hlost bo hbo _ ?_⟩
        · rintro ⟨bo', hbo', -, hend, husermm⟩
          rw [hbo] at hbo'
          cases hbo'
          simp [husermm, Nat.not_lt.mpr hend] at hbad
        · simp [pointer, Pi.single_neg]
          abel
      · next hgood =>
        refine ⟨⟨fun _ => ⟨bo, hbo, by simpa using hsize, ?_⟩, fun _ => trivial⟩, rfl, rfl,
          fun _ => ⟨rfl, rfl⟩, hlost bo hbo _ ?_⟩
        · simpa using hgood
        · simp [pointer, Pi.single_neg]
          abel

/-- What `gsgpu_cs_bo_handles_chunk` leaves. -/
structure BoHandlesPost (env : Env) (i : ℕ) (c : Chunk) (s : State) (r : Except Errno Unit)
    (s' : State) : Prop where
  ok : IsOk r ↔ BoHandlesOk env i c
  parser : s'.parser = { s.parser with boList := s'.parser.boList }
  own : s'.own = { s.own with boList := s'.own.boList }
  created : IsOk r → s'.own.boList = some (.chunk i) ∧ s'.parser.boList.isSome = true
  kept : ¬ IsOk r → s'.own.boList = s.own.boList
  lost : Loses s s' (s.own.boList.isSome ∧ BoHandlesOk env i c)

theorem csBoHandlesChunk_balance (hlist : ∀ h, s.own.boList ≠ some (.handle h)) :
    wp True (csBoHandlesChunk env i c) (BoHandlesPost env.toEnv i c s) s := by
  simp only [csBoHandlesChunk, wp_bind, wp_run_readWord, wp_run_readQword, wp_outcome]
  intro _ _ _ _
  split
  · next e he =>
    refine ⟨⟨nofun, fun h => ?_⟩, rfl, rfl, nofun, fun _ => rfl, .none rfl ?_⟩
    · cases he.symm.trans h.1
    · rintro ⟨-, h⟩
      cases he.symm.trans h.1
  · next hentries =>
    simp only [wp_bind, wp_take, wp_ensuring, wp_outcome, wp_run_modify, wp_setOwn]
    split
    · next e he =>
      refine ⟨⟨nofun, fun h => ?_⟩, rfl, rfl, nofun, fun _ => rfl, .none ?_ ?_⟩
      · obtain ⟨n, hn⟩ := h.2
        cases he.symm.trans hn
      · simp [Pi.single_neg]
      · rintro ⟨-, -, n, hn⟩
        cases he.symm.trans hn
    · next n hn =>
      refine ⟨⟨fun _ => ⟨hentries, n, hn⟩, fun _ => trivial⟩, rfl, rfl, fun _ => ⟨rfl, rfl⟩,
        fun h => (h trivial).elim, pointer .boList s.own.boList, ?_, ?_, fun h => ?_⟩
      · simp [pointer, Pi.single_neg]
        abel
      · exact (Lost.pointer _ _).congr (by simp [show BoHandlesOk env.toEnv i c from ⟨hentries, n, hn⟩])
      · cases hl : s.own.boList with
        | none => rfl
        | some l =>
          refine Pi.single_eq_of_ne (fun heq => hlist h ?_) 1
          rw [hl, ← Obj.boList.inj heq]

theorem chunkOk_fence {env : Env} (hid : c.chunkId = chunkIdFence) :
    ChunkOk env i c ↔ Copied env i ∧ 8 ≤ c.lengthDw.toNat * 4 ∧ FenceOk env i c := by
  simp [ChunkOk, hid, chunkIdFence, chunkIdIb, chunkIdBoHandles, chunkIdDependencies,
    chunkIdSyncobjIn, chunkIdSyncobjOut]

theorem chunkOk_boHandles {env : Env} (hid : c.chunkId = chunkIdBoHandles) :
    ChunkOk env i c ↔ Copied env i ∧ 24 ≤ c.lengthDw.toNat * 4 ∧ BoHandlesOk env i c := by
  simp [ChunkOk, hid, chunkIdFence, chunkIdIb, chunkIdBoHandles, chunkIdDependencies,
    chunkIdSyncobjIn, chunkIdSyncobjOut]

/-- A chunk takes the place of a user fence or a list that the parser has already. -/
def Overwrites (env : Env) (i : ℕ) (c : Chunk) (uf list : Prop) : Prop :=
  uf ∧ FenceFound env i c ∨ list ∧ c.chunkId = chunkIdBoHandles ∧ ChunkOk env i c

/-- The parser as the loop of `gsgpu_cs_parser_init` has it before the `i`-th chunk. -/
structure Reading (cs : List Chunk) (i : ℕ) (s : State) : Prop where
  chunks : s.parser.chunks = some cs
  nchunks : s.parser.nchunks = cs.length
  kdata : s.own.kdata.length = i
  list : ∀ h, s.own.boList ≠ some (.handle h)

/-- What the first pass leaves as it is. -/
structure InitKeeps (s s' : State) : Prop where
  parser : s'.parser = { s.parser with
    boList := s'.parser.boList
    ufRobj := s'.parser.ufRobj }
  own : s'.own = { s.own with
    boList := s'.own.boList
    ufRobj := s'.own.ufRobj
    kdata := s'.own.kdata
    partialKdata := s'.own.partialKdata }

/-- What the loop of `gsgpu_cs_parser_init` leaves of one chunk. -/
structure ChunkPost (env : Env) (i : ℕ) (c : Chunk) (numIbs : ℕ) (s : State)
    (r : Except Errno (ℕ × UInt32)) (s' : State) : Prop extends InitKeeps s s' where
  ok : IsOk r ↔ ChunkOk env i c
  ibs : ∀ n u, r = .ok (n, u) → n = numIbs + if c.chunkId = chunkIdIb then 1 else 0
  kdata : s'.own.partialKdata = s'.own.kdata.length ∧ s'.own.kdata.length ≤ i + 1
  kdata_ok : IsOk r → s'.own.kdata.length = i + 1
  list : ∀ h, s'.own.boList ≠ some (.handle h)
  uf : IsOk r → (s'.own.ufRobj.isSome = true ↔ s.own.ufRobj.isSome ∨ c.chunkId = chunkIdFence) ∧
    (s'.parser.ufRobj.isSome = true ↔ s.parser.ufRobj.isSome ∨ c.chunkId = chunkIdFence)
  boList : IsOk r → (s'.own.boList.isSome = true ↔ s.own.boList.isSome ∨ c.chunkId = chunkIdBoHandles) ∧
    (s'.parser.boList.isSome = true ↔ s.parser.boList.isSome ∨ c.chunkId = chunkIdBoHandles)
  lost : Loses s s' (Overwrites env i c (s.own.ufRobj.isSome = true) (s.own.boList.isSome = true))

/-- The chunk has been copied in, or not quite, and nothing else is done. -/
theorem ChunkPost.plain {cs : List Chunk} {numIbs : ℕ} {r : Except Errno (ℕ × UInt32)}
    (h : Reading cs i s) (hparser : s'.parser = s.parser)
    (hown : s'.own = { s.own with kdata := s'.own.kdata, partialKdata := s'.own.partialKdata })
    (hextra : s'.extra = s.extra)
    (hkdata : s'.own.partialKdata = s'.own.kdata.length ∧ s'.own.kdata.length ≤ i + 1)
    (hkdata' : IsOk r → s'.own.kdata.length = i + 1) (hok : IsOk r ↔ ChunkOk env.toEnv i c)
    (hibs : ∀ n u, r = .ok (n, u) → n = numIbs + if c.chunkId = chunkIdIb then 1 else 0)
    (hfence : c.chunkId = chunkIdFence → ¬ IsOk r ∧ ¬ FenceFound env.toEnv i c)
    (hlist : c.chunkId = chunkIdBoHandles → ¬ IsOk r) :
    ChunkPost env.toEnv i c numIbs s r s' := by
  have huf : s'.own.ufRobj = s.own.ufRobj := by rw [hown]
  have hbl : s'.own.boList = s.own.boList := by rw [hown]
  refine ⟨⟨by rw [hparser], ?_⟩, hok, hibs, hkdata, hkdata', ?_, ?_, ?_, .none hextra ?_⟩
  · rw [huf, hbl]
    exact hown
  · rw [hbl]
    exact h.list
  · intro hr
    have hne : c.chunkId ≠ chunkIdFence := fun hid => (hfence hid).1 hr
    rw [huf, hparser]
    simp [hne]
  · intro hr
    have hne : c.chunkId ≠ chunkIdBoHandles := fun hid => hlist hid hr
    rw [hbl, hparser]
    simp [hne]
  · rintro (⟨-, hfound⟩ | ⟨-, hid, hc⟩)
    · exact (hfence hfound.2.1).2 hfound
    · exact hlist hid (hok.mpr hc)

/-- The chunk has been copied in. -/
structure CopiedIn (i : ℕ) (c : Chunk) (s t : State) : Prop where
  parser : t.parser = s.parser
  own : t.own = { s.own with kdata := s.own.kdata ++ [c.lengthDw.toNat], partialKdata := i + 1 }
  extra : t.extra = s.extra

/-- A chunk with a user fence. -/
theorem UserFencePost.chunkPost {cs : List Chunk} {t : State} {numIbs : ℕ}
    {r : Except Errno UInt32} {r' : Except Errno (ℕ × UInt32)} (h : Reading cs i s)
    (hcopied : Copied env.toEnv i) (ht : CopiedIn i c s t) (hid : c.chunkId = chunkIdFence)
    (hlen : 8 ≤ c.lengthDw.toNat * 4) (hpost : UserFencePost env.toEnv i c t r s')
    (hr : IsOk r' ↔ IsOk r) (hibs : ∀ n u, r' = .ok (n, u) → n = numIbs) :
    ChunkPost env.toEnv i c numIbs s r' s' := by
  have hne : c.chunkId ≠ chunkIdBoHandles := fun h => absurd (hid.symm.trans h) (by decide)
  have hne' : c.chunkId ≠ chunkIdIb := fun h => absurd (hid.symm.trans h) (by decide)
  have hp := hpost.parser
  rw [ht.parser] at hp
  have hbl : s'.parser.boList = s.parser.boList := by rw [hp]
  have ho := hpost.own
  rw [ht.own] at ho
  have hbl' : s'.own.boList = s.own.boList := by rw [ho]
  have hkd : s'.own.kdata = s.own.kdata ++ [c.lengthDw.toNat] := by rw [ho]
  have hpk : s'.own.partialKdata = i + 1 := by rw [ho]
  have hlen' : s'.own.kdata.length = i + 1 := by simp [hkd, h.kdata]
  refine ⟨⟨by rw [hbl]; exact hp, by rw [hbl', hkd, hpk]; exact ho⟩, ?_, ?_, ?_, fun _ => hlen', ?_, ?_,
    ?_, ?_⟩
  · rw [hr, hpost.ok, chunkOk_fence hid]
    exact ⟨fun hf => ⟨hcopied, hlen, hf⟩, fun hc => hc.2.2⟩
  · intro n u hn
    rw [hibs n u hn, if_neg hne', Nat.add_zero]
  · exact ⟨hpk.trans hlen'.symm, hlen'.le⟩
  · rw [hbl']
    exact h.list
  · intro hok
    obtain ⟨hv, hu⟩ := hpost.found (hr.mp hok)
    simp [hv, hu, hid]
  · intro _
    rw [hbl, hbl']
    simp [hne]
  · obtain ⟨lost, hextra, hlost, hzero⟩ := hpost.lost
    refine ⟨lost, by rw [hextra, ht.extra], hlost.congr ?_, hzero⟩
    have huf : t.own.ufRobj = s.own.ufRobj := by rw [ht.own]
    simp [Overwrites, FenceFound, huf, hid, hcopied, hlen, show chunkIdFence ≠ chunkIdBoHandles by decide]

/-- A chunk with a list. -/
theorem BoHandlesPost.chunkPost {cs : List Chunk} {t : State} {numIbs : ℕ}
    {r : Except Errno Unit} {r' : Except Errno (ℕ × UInt32)} (h : Reading cs i s)
    (hcopied : Copied env.toEnv i) (ht : CopiedIn i c s t) (hid : c.chunkId = chunkIdBoHandles)
    (hlen : 24 ≤ c.lengthDw.toNat * 4) (hpost : BoHandlesPost env.toEnv i c t r s')
    (hr : IsOk r' ↔ IsOk r) (hibs : ∀ n u, r' = .ok (n, u) → n = numIbs) :
    ChunkPost env.toEnv i c numIbs s r' s' := by
  have hne : c.chunkId ≠ chunkIdFence := fun h => absurd (hid.symm.trans h) (by decide)
  have hne' : c.chunkId ≠ chunkIdIb := fun h => absurd (hid.symm.trans h) (by decide)
  have hp := hpost.parser
  rw [ht.parser] at hp
  have huf : s'.parser.ufRobj = s.parser.ufRobj := by rw [hp]
  have ho := hpost.own
  rw [ht.own] at ho
  have huf' : s'.own.ufRobj = s.own.ufRobj := by rw [ho]
  have hkd : s'.own.kdata = s.own.kdata ++ [c.lengthDw.toNat] := by rw [ho]
  have hpk : s'.own.partialKdata = i + 1 := by rw [ho]
  have hbl : t.own.boList = s.own.boList := by rw [ht.own]
  have hlen' : s'.own.kdata.length = i + 1 := by simp [hkd, h.kdata]
  have hchunk : ChunkOk env.toEnv i c ↔ BoHandlesOk env.toEnv i c := by
    rw [chunkOk_boHandles hid]
    exact ⟨fun hc => hc.2.2, fun hb => ⟨hcopied, hlen, hb⟩⟩
  refine ⟨⟨by rw [huf]; exact hp, by rw [huf', hkd, hpk]; exact ho⟩, ?_, ?_, ?_, fun _ => hlen', ?_, ?_,
    ?_, ?_⟩
  · rw [hr, hpost.ok, hchunk]
  · intro n u hn
    rw [hibs n u hn, if_neg hne', Nat.add_zero]
  · exact ⟨hpk.trans hlen'.symm, hlen'.le⟩
  · intro l
    by_cases hok : IsOk r
    · rw [(hpost.created hok).1]
      exact nofun
    · rw [hpost.kept hok, hbl]
      exact h.list l
  · intro _
    rw [huf, huf']
    simp [hne]
  · intro hok
    obtain ⟨hv, hu⟩ := hpost.created (hr.mp hok)
    simp [hv, hu, hid]
  · obtain ⟨lost, hextra, hlost, hzero⟩ := hpost.lost
    refine ⟨lost, by rw [hextra, ht.extra], hlost.congr ?_, hzero⟩
    simp [Overwrites, FenceFound, hbl, hid, hchunk, show chunkIdBoHandles ≠ chunkIdFence by decide]

theorem parserInitSwitch_balance {cs : List Chunk} {t : State} (h : Reading cs i s)
    (hcopied : Copied env.toEnv i) (ht : CopiedIn i c s t) (numIbs : ℕ) (u : UInt32) :
    wp True (parserInitSwitch env i c numIbs u) (ChunkPost env.toEnv i c numIbs s) t := by
  have hkdata : t.own.kdata.length = i + 1 := by simp [ht.own, h.kdata]
  have hpart : t.own.partialKdata = t.own.kdata.length := by rw [hkdata, ht.own]
  have hown : t.own = { s.own with kdata := t.own.kdata, partialKdata := t.own.partialKdata } := by
    rw [ht.own]
  have hplain : ∀ r : Except Errno (ℕ × UInt32), (IsOk r ↔ ChunkOk env.toEnv i c) →
      (∀ n u, r = .ok (n, u) → n = numIbs + if c.chunkId = chunkIdIb then 1 else 0) →
      (c.chunkId = chunkIdFence → ¬ IsOk r ∧ ¬ FenceFound env.toEnv i c) →
      (c.chunkId = chunkIdBoHandles → ¬ IsOk r) → ChunkPost env.toEnv i c numIbs s r t :=
    fun r => .plain h ht.parser hown ht.extra ⟨hpart, hkdata.le⟩ fun _ => hkdata
  simp only [parserInitSwitch, wp_ite, wp_pure, wp_fail, wp_bind]
  split
  · next hid =>
    refine hplain _ ⟨fun _ => ⟨hcopied, .inl hid⟩, fun _ => trivial⟩ ?_
      (fun hf => absurd (hid.symm.trans hf) (by decide))
      (fun hf => absurd (hid.symm.trans hf) (by decide))
    rintro n u ⟨⟩
    rw [if_pos hid]
  · next hib =>
    split
    · next hid =>
      split
      · next hshort =>
        refine hplain _ ⟨nofun, fun hc => ?_⟩ nofun (fun _ => ⟨nofun, fun hf => ?_⟩) fun _ => nofun
        · have := ((chunkOk_fence hid).mp hc).2.1
          omega
        · have := hf.2.2.1
          omega
      · next hlong =>
        refine wp_mono csUserFenceChunk_balance fun r s' hpost => ?_
        cases r with
        | error e =>
          exact hpost.chunkPost h hcopied ht hid (Nat.le_of_not_lt hlong) Iff.rfl nofun
        | ok v =>
          refine hpost.chunkPost h hcopied ht hid (Nat.le_of_not_lt hlong) Iff.rfl ?_
          rintro n u ⟨⟩
          rfl
    · next hfence =>
      split
      · next hid =>
        split
        · next hshort =>
          refine hplain _ ⟨nofun, fun hc => ?_⟩ nofun (fun hf => (hfence hf).elim) fun _ => nofun
          have := ((chunkOk_boHandles hid).mp hc).2.1
          omega
        · next hlong =>
          have hlist : ∀ l, t.own.boList ≠ some (.handle l) := by
            rw [ht.own]
            exact h.list
          refine wp_mono (csBoHandlesChunk_balance hlist) fun r s' hpost => ?_
          cases r with
          | error e =>
            exact hpost.chunkPost h hcopied ht hid (Nat.le_of_not_lt hlong) Iff.rfl nofun
          | ok v =>
            refine hpost.chunkPost h hcopied ht hid (Nat.le_of_not_lt hlong) Iff.rfl ?_
            rintro n u ⟨⟩
            rfl
      · next hlist =>
        split
        · next hid =>
          refine hplain _ ⟨fun _ => ⟨hcopied, .inr (.inr (.inr hid))⟩, fun _ => trivial⟩ ?_
            (fun hf => (hfence hf).elim) (fun hf => (hlist hf).elim)
          rintro n u ⟨⟩
          rw [if_neg hib, Nat.add_zero]
        · next hid =>
          refine hplain _ ⟨nofun, fun hc => ?_⟩ nofun (fun hf => (hfence hf).elim)
            (fun hf => (hlist hf).elim)
          rcases hc.2 with h | h | h | h
          · exact (hib h).elim
          · exact (hfence h.1).elim
          · exact (hlist h.1).elim
          · exact (hid h).elim

theorem parserInitChunk_balance {cs : List Chunk} (h : Reading cs i s)
    (hlt : i < cs.length) (numIbs : ℕ) (u : UInt32) :
    wp True (parserInitChunk env i c numIbs u) (ChunkPost env.toEnv i c numIbs s) s := by
  have hle := h.kdata
  -- a chunk that is not copied in
  have hfail : ∀ (e : Errno) (t : State), ¬ Copied env.toEnv i → t.parser = s.parser →
      t.own = { s.own with kdata := t.own.kdata, partialKdata := t.own.partialKdata } →
      t.extra = s.extra → t.own.partialKdata = t.own.kdata.length ∧ t.own.kdata.length ≤ i + 1 →
      ChunkPost env.toEnv i c numIbs s (.error e) t := fun e t hnot hparser hown hextra hkdata =>
    .plain h hparser hown hextra hkdata nofun ⟨nofun, fun hc => hnot hc.1⟩ nofun
      (fun _ => ⟨nofun, fun hf => hnot hf.1⟩) nofun
  simp only [parserInitChunk, wp_bind, wp_setOwn, wp_require, wp_take]
  refine ⟨fun hcopy => ⟨fun hkdata => ?_, fun hkdata => ?_⟩, fun hcopy => ?_⟩
  · generalize ht : State.setOwn _ _ = t
    have hin : CopiedIn i c s t := by
      refine ⟨by rw [← ht]; rfl, by rw [← ht]; rfl, ?_⟩
      rw [← ht, extra_setOwn_kdata]
      · simp
      · exact h.chunks
      · show s.own.kdata.length < s.parser.nchunks
        rw [h.kdata, h.nchunks]
        exact hlt
    refine ⟨fun hdata => parserInitSwitch_balance h ⟨hcopy, hkdata, hdata⟩ hin numIbs u,
      fun hdata => ?_⟩
    refine hfail _ _ (fun hc => absurd hc.2.2 (by simp [hdata])) hin.parser (by rw [hin.own]) hin.extra ?_
    simp [hin.own, hle]
  · exact hfail _ _ (fun hc => absurd hc.2.1 (by simp [hkdata])) rfl rfl rfl
      ⟨hle.symm, hle.le.trans (Nat.le_succ i)⟩
  · exact hfail _ _ (fun hc => absurd hc.1 (by simp [hcopy])) rfl rfl rfl
      ⟨hle.symm, hle.le.trans (Nat.le_succ i)⟩

/-- `gsgpu_cs_parser_init` gets past all chunks, from the `i`-th on. -/
def ChunksOk (env : Env) : ℕ → List Chunk → Prop
  | _, [] => True
  | i, c :: cs => ChunkOk env i c ∧ ChunksOk env (i + 1) cs

/-- One of the chunks overwrites, while those before it are accepted. -/
def LoopOverwrites (env : Env) : ℕ → List Chunk → Prop → Prop → Prop
  | _, [], _, _ => False
  | i, c :: cs, uf, list => Overwrites env i c uf list ∨ ChunkOk env i c ∧
      LoopOverwrites env (i + 1) cs (uf ∨ c.chunkId = chunkIdFence)
        (list ∨ c.chunkId = chunkIdBoHandles)

theorem LoopOverwrites.congr {env : Env} {cs : List Chunk} {uf uf' list list' : Prop} (i : ℕ)
    (huf : uf ↔ uf') (hlist : list ↔ list') :
    LoopOverwrites env i cs uf list ↔ LoopOverwrites env i cs uf' list' := by
  rw [propext huf, propext hlist]

/-- There is a chunk of a kind. -/
def Has (id : UInt32) (cs : List Chunk) : Prop := ∃ c ∈ cs, c.chunkId = id

theorem has_cons {id : UInt32} {c : Chunk} {cs : List Chunk} :
    Has id (c :: cs) ↔ c.chunkId = id ∨ Has id cs := by
  simp [Has]

/-- What the loop of `gsgpu_cs_parser_init` leaves. -/
structure LoopPost (env : Env) (i : ℕ) (cs : List Chunk) (numIbs : ℕ) (s : State)
    (r : Except Errno (ℕ × UInt32)) (s' : State) : Prop extends InitKeeps s s' where
  ok : IsOk r ↔ ChunksOk env i cs
  ibs : ∀ n u, r = .ok (n, u) → n = numIbs + ibCount cs
  kdata : s'.own.partialKdata = s'.own.kdata.length ∧ s'.own.kdata.length ≤ i + cs.length
  list : ∀ h, s'.own.boList ≠ some (.handle h)
  uf : IsOk r → (s'.parser.ufRobj.isSome = true ↔ s.parser.ufRobj.isSome ∨ Has chunkIdFence cs)
  boList : IsOk r →
    (s'.own.boList.isSome = true ↔ s.own.boList.isSome ∨ Has chunkIdBoHandles cs) ∧
    (s'.parser.boList.isSome = true ↔ s.parser.boList.isSome ∨ Has chunkIdBoHandles cs)
  lost : Loses s s'
    (LoopOverwrites env i cs (s.own.ufRobj.isSome = true) (s.own.boList.isSome = true))

theorem InitKeeps.trans {t : State} (h : InitKeeps s t) (h' : InitKeeps t s') : InitKeeps s s' := by
  have hp := h'.parser
  have ho := h'.own
  rw [h.parser] at hp
  rw [h.own] at ho
  exact ⟨hp, ho⟩

theorem parserInitLoop_balance {cs₀ cs : List Chunk} (h : Reading cs₀ i s)
    (hpart : s.own.partialKdata = s.own.kdata.length) (hlen : i + cs.length = cs₀.length)
    (numIbs : ℕ) (u : UInt32) :
    wp True (parserInitLoop env i cs numIbs u) (LoopPost env.toEnv i cs numIbs s) s := by
  induction cs generalizing i s numIbs u with
  | nil =>
    refine ⟨⟨rfl, rfl⟩, ⟨fun _ => trivial, fun _ => trivial⟩, ?_, ⟨hpart, h.kdata.le⟩, h.list, ?_, ?_,
      .none rfl nofun⟩
    · rintro n u ⟨⟩
      rfl
    · simp [Has]
    · simp [Has]
  | cons c cs ih =>
    have hlen' : i + (cs.length + 1) = cs₀.length := hlen
    unfold parserInitLoop
    rw [wp_bind]
    refine wp_mono (parserInitChunk_balance h (by omega) numIbs u) fun r t hc => ?_
    cases r with
    | error e =>
      have hnot : ¬ ChunkOk env.toEnv i c := fun hok => hc.ok.mpr hok
      refine ⟨hc.toInitKeeps, ⟨nofun, fun hok => hnot hok.1⟩, nofun, ⟨hc.kdata.1, ?_⟩, hc.list, nofun,
        nofun, hc.lost.congr ?_⟩
      · have := hc.kdata.2
        simp only [List.length_cons]
        omega
      · simp [LoopOverwrites, hnot]
    | ok nu =>
      obtain ⟨n, u'⟩ := nu
      have hok : ChunkOk env.toEnv i c := hc.ok.mp trivial
      have hkdata := hc.kdata_ok trivial
      have hp := hc.parser
      have hread : Reading cs₀ (i + 1) t :=
        ⟨by rw [hp]; exact h.chunks, by rw [hp]; exact h.nchunks, hkdata, hc.list⟩
      refine wp_mono (ih hread hc.kdata.1 (by omega) n u') fun r s' hr => ?_
      have huf := hc.uf trivial
      have hbl := hc.boList trivial
      refine ⟨hc.toInitKeeps.trans hr.toInitKeeps, ?_, ?_, ⟨hr.kdata.1, ?_⟩, hr.list, ?_, ?_, ?_⟩
      · rw [hr.ok]
        exact ⟨fun h => ⟨hok, h⟩, fun h => h.2⟩
      · intro n' u'' hn'
        rw [hr.ibs n' u'' hn', hc.ibs n u' rfl]
        by_cases hib : c.chunkId = chunkIdIb
        · rw [if_pos hib, ibCount_cons_of_eq cs hib]
          omega
        · rw [if_neg hib, ibCount_cons_of_ne cs hib, Nat.add_zero]
      · have := hr.kdata.2
        simp only [List.length_cons]
        omega
      · intro hr'
        rw [hr.uf hr', huf.2, has_cons, or_assoc]
      · intro hr'
        rw [(hr.boList hr').1, (hr.boList hr').2, hbl.1, hbl.2, has_cons, or_assoc, or_assoc]
        exact ⟨Iff.rfl, Iff.rfl⟩
      · refine (hc.lost.trans hr.lost).congr ?_
        rw [LoopOverwrites.congr (i + 1) huf.1 hbl.1]
        simp [LoopOverwrites, hok]

/-- `gsgpu_cs_parser_init` gets to the chunks. -/
structure InitReached (env : Env) (req : Request) : Prop where
  accel : env.accelWorking = true
  chunks : req.chunks ≠ []
  chunkArray : env.chunkArrayOk = true
  ctx : ∃ ctx, env.ctxGet req.ctxId = some ctx ∧ ctx.guilty = false
  copied : env.copyChunkArray = true
  chunksOk : env.chunksOk = true

/-- `gsgpu_cs_parser_init` returns 0. -/
structure InitOk (env : Env) (req : Request) : Prop extends InitReached env req where
  accepted : ChunksOk env 0 req.chunks
  ibs : 0 < ibCount req.chunks
  job : env.jobOk = true
  vram : ∀ ctx, env.ctxGet req.ctxId = some ctx → ctx.vramLostCounter = env.vramLostCounter

/-- What is freed on an error is what the account has. -/
theorem freeKdata_extra {cs : List Chunk} (hchunks : s.parser.chunks = some cs)
    (hnchunks : s.parser.nchunks = cs.length) (hpart : s.own.partialKdata = s.own.kdata.length)
    (hle : s.own.kdata.length ≤ cs.length) : (freeKdata s).extra = s.extra := by
  have htake : s.own.kdata.take s.own.partialKdata = s.own.kdata :=
    List.take_of_length_le hpart.ge
  have htake' : s.own.kdata.take cs.length = s.own.kdata := List.take_of_length_le hle
  simp only [State.extra, State.held, freeKdata, Cs.freeKdata, hchunks, Option.elim_some,
    Option.elim_none, htake, htake', hnchunks, Pi.single_neg]
  abel

/-- What is left of `gsgpu_cs_parser_init` once the array of chunks is allocated. -/
structure ChunksPost (env : Env) (cs : List Chunk) (ctx : Ctx) (s : State) (r : Except Errno Unit)
    (s' : State) : Prop where
  ok : IsOk r ↔ ChunksOk env 0 cs ∧ 0 < ibCount cs ∧ env.jobOk = true ∧
    ctx.vramLostCounter = env.vramLostCounter
  lost : Loses s s' (LoopOverwrites env 0 cs False False)
  own : s'.own.postDepSyncobjs = s.own.postDepSyncobjs ∧ s'.own.postDepSize = s.own.postDepSize ∧
    s'.own.fence = s.own.fence
  list : ∀ h, s'.own.boList ≠ some (.handle h)
  uf : IsOk r → (s'.parser.ufRobj.isSome = true ↔ Has chunkIdFence cs)
  boList : IsOk r → (s'.own.boList.isSome = true ↔ Has chunkIdBoHandles cs) ∧
    (s'.parser.boList.isSome = true ↔ Has chunkIdBoHandles cs)

theorem vramLostCheck_spec {env : Env} {p : Parser} {ctx : Ctx} (hctx : p.ctx = some ctx)
    (u : UInt32) : wp True (vramLostCheck env u) (fun r p' =>
      (IsOk r ↔ ctx.vramLostCounter = env.vramLostCounter) ∧ Quiet p p') p := by
  simp only [vramLostCheck, wp_bind, wp_gets]
  refine wp_deref_of hctx ?_
  simp only [wp_require, decide_eq_true_eq, decide_eq_false_iff_not, wp_ite, wp_modify, wp_pure]
  refine ⟨fun hvram => ?_, fun hvram => ⟨⟨nofun, fun h => hvram h⟩, .refl p⟩⟩
  split
  · exact ⟨⟨fun _ => hvram, fun _ => trivial⟩, rfl, rfl, Option.isSome_map, rfl, rfl⟩
  · exact ⟨⟨fun _ => hvram, fun _ => trivial⟩, .refl p⟩

theorem parserInitChunks_balance {cs : List Chunk} {ctx : Ctx} (h : Reading cs 0 s)
    (hpart : s.own.partialKdata = 0) (hctx : s.parser.ctx = some ctx) (hjob : s.parser.job = none)
    (huf : s.own.ufRobj = none ∧ s.parser.ufRobj = none)
    (hlist : s.own.boList = none ∧ s.parser.boList = none) :
    wp True (onError freeKdata do
      let (numIbs, ufOffset) ← parserInitLoop env 0 cs 0 0
      jobAlloc env numIbs
      run (vramLostCheck env.toEnv ufOffset)) (ChunksPost env.toEnv cs ctx s) s := by
  rw [wp_onError, wp_bind]
  refine wp_mono (parserInitLoop_balance h (by rw [hpart, h.kdata]) (Nat.zero_add _) 0 0)
    fun r t hr => ?_
  obtain ⟨lost, hlost⟩ : Loses s t (LoopOverwrites env.toEnv 0 cs False False) := by
    refine hr.lost.congr (LoopOverwrites.congr 0 ?_ ?_)
    · simp [huf.1]
    · simp [hlist.1]
  have hp := hr.parser
  have hchunks : t.parser.chunks = some cs := by
    rw [hp]
    exact h.chunks
  have hnchunks : t.parser.nchunks = cs.length := by
    rw [hp]
    exact h.nchunks
  have hown : t.own.postDepSyncobjs = s.own.postDepSyncobjs ∧
      t.own.postDepSize = s.own.postDepSize ∧ t.own.fence = s.own.fence := by
    rw [hr.own]
    exact ⟨rfl, rfl, rfl⟩
  -- an error: all chunks are freed
  have hfail : ∀ (e : Errno) (u : State), u.own = t.own → u.parser.chunks = t.parser.chunks →
      u.parser.nchunks = t.parser.nchunks → u.extra = t.extra → ¬ (ChunksOk env.toEnv 0 cs ∧
        0 < ibCount cs ∧ env.jobOk = true ∧ ctx.vramLostCounter = env.vramLostCounter) →
      ChunksPost env.toEnv cs ctx s (.error e) (freeKdata u) := by
    intro e u hu hc hn hextra hnot
    have hfree : (freeKdata u).extra = t.extra := by
      rw [freeKdata_extra (hc.trans hchunks) (hn.trans hnchunks), hextra]
      · rw [hu, hr.kdata.1]
      · rw [hu]
        exact hr.kdata.2.trans_eq (Nat.zero_add _)
    refine ⟨⟨nofun, fun hok => hnot hok⟩, ⟨lost, hfree ▸ hlost⟩, ?_, ?_, nofun, nofun⟩
    · rw [← hu] at hown
      exact hown
    · show ∀ h, u.own.boList ≠ some (.handle h)
      rw [hu]
      exact hr.list
  cases r with
  | error e => exact hfail e t rfl rfl rfl rfl fun hok => hr.ok.mpr hok.1
  | ok nu =>
    obtain ⟨n, uf⟩ := nu
    have hn : n = ibCount cs := (hr.ibs n uf rfl).trans (Nat.zero_add _)
    have haccepted := hr.ok.mp trivial
    have htjob : t.parser.job = none := by
      rw [hp]
      exact hjob
    have htctx : t.parser.ctx = some ctx := by
      rw [hp]
      exact hctx
    simp only [jobAlloc, Cs.jobAlloc, wp_bind, wp_zoom, wp_ite, wp_fail, wp_require, wp_modify, wp_take]
    split
    · next hzero => exact hfail _ _ rfl rfl rfl rfl fun hok => by omega
    · next hpos =>
      refine ⟨fun hjobOk => ?_, fun hjobOk => ?_⟩
      · -- the job is the account's and the parser's
        generalize hu : State.add _ Obj.job 1 = u
        have huown : u.own = t.own := by rw [← hu]; rfl
        have huparser : u.parser = { t.parser with job := some ⟨n, [], false, 0⟩ } := by rw [← hu]; rfl
        have huextra : u.extra = t.extra := by
          rw [← hu, extra_add, extra_set, htjob]
          · simp
          · rfl
          · rfl
        have huctx : u.parser.ctx = some ctx := by rw [huparser, htctx]
        refine wp_mono (vramLostCheck_spec huctx uf) fun r p' hcheck => ?_
        obtain ⟨hok, hquiet⟩ := hcheck
        have hextra : (parserOf.set p' u).extra = t.extra := (Quiet.extra hquiet).trans huextra
        cases r with
        | error e =>
          refine hfail e _ huown ?_ ?_ hextra fun hall => hok.mpr hall.2.2.2
          · exact hquiet.chunks.trans (by rw [huparser])
          · exact hquiet.nchunks.trans (by rw [huparser])
        | ok _ =>
          have hpuf : p'.ufRobj = t.parser.ufRobj := hquiet.ufRobj.trans (by rw [huparser])
          have hpbl : p'.boList = t.parser.boList := hquiet.boList.trans (by rw [huparser])
          refine ⟨⟨fun _ => ⟨haccepted, by omega, hjobOk, hok.mp trivial⟩, fun _ => trivial⟩,
            ⟨lost, hextra ▸ hlost⟩, huown ▸ hown, huown ▸ hr.list, fun _ => ?_, fun _ => ?_⟩
          · rw [parser_set, hpuf, hr.uf trivial]
            simp [huf.2]
          · rw [own_set, huown, parser_set, hpbl, (hr.boList trivial).1, (hr.boList trivial).2]
            simp [hlist.1, hlist.2]
      · exact hfail _ _ rfl rfl rfl rfl fun hok => by simp [hok.2.2.1] at hjobOk

/-- What `gsgpu_cs_parser_init` leaves. -/
structure InitPost (env : Env) (req : Request) (s : State) (r : Except Errno Unit) (s' : State) :
    Prop where
  ok : IsOk r ↔ InitOk env req
  lost : Loses s s' (InitReached env req ∧ LoopOverwrites env 0 req.chunks False False)
  own : s'.own.postDepSyncobjs = [] ∧ s'.own.postDepSize = 0 ∧ s'.own.fence = false
  list : ∀ h, s'.own.boList ≠ some (.handle h)
  uf : IsOk r → (s'.parser.ufRobj.isSome = true ↔ Has chunkIdFence req.chunks)
  boList : IsOk r → (s'.own.boList.isSome = true ↔ Has chunkIdBoHandles req.chunks) ∧
    (s'.parser.boList.isSome = true ↔ Has chunkIdBoHandles req.chunks)

theorem csParserInit_balance {req : Request} (refs : Obj → ℤ) (haccel : env.accelWorking = true)
    (hne : req.chunks ≠ []) :
    wp True (csParserInit env req) (InitPost env.toEnv req (.start refs)) (.start refs) := by
  have hlen : req.chunks.length ≠ 0 := by simpa using hne
  -- an error before the chunks are looked at
  have hfail : ∀ (e : Errno) (t : State), ¬ InitReached env.toEnv req →
      t.own = { Owned.zero with ctx := t.own.ctx } → t.extra = (State.start refs).extra →
      InitPost env.toEnv req (.start refs) (.error e) t := by
    intro e t hnot hown hextra
    refine ⟨⟨nofun, fun h => hnot h.toInitReached⟩, .none hextra fun h => hnot h.1, ?_, ?_, nofun, nofun⟩
    · rw [hown]
      exact ⟨rfl, rfl, rfl⟩
    · rw [hown]
      exact nofun
  simp only [csParserInit, if_neg hlen, wp_bind, wp_require, wp_take, wp_ensuring]
  refine ⟨fun harray => ?_, fun harray => ?_⟩
  · unfold parserInitChunks
    split
    · next hnone =>
      refine hfail _ _ (fun h => ?_) rfl ?_
      · obtain ⟨ctx, hctx, -⟩ := h.ctx
        rw [hnone] at hctx
        cases hctx
      · simp [Pi.single_neg]
    · next ctx hctx =>
      simp only [wp_bind, wp_take, wp_run_modify, wp_setOwn, wp_require]
      refine ⟨fun hguilty => ⟨fun hcopied => ⟨fun hchunksOk => ?_, fun hchunksOk => ?_⟩,
        fun hcopied => ?_⟩, fun hguilty => ?_⟩
      · generalize ht : State.setParser _ (fun p => { p with chunks := some req.chunks }) = t
        have hread : Reading req.chunks 0 t := by
          rw [← ht]
          exact ⟨rfl, rfl, rfl, nofun⟩
        have hextra : t.extra = (State.start refs).extra + Pi.single .memory (req.chunks.length : ℤ) := by
          rw [← ht]
          simp [State.extra, State.held, State.start, State.add, State.setOwn, State.setParser,
            Owned.zero, Parser.zero]
        have hown : t.own = { Owned.zero with ctx := some req.ctxId } := by
          rw [← ht]
          rfl
        have hparser : t.parser = { Parser.zero with
            ctx := some ctx, nchunks := req.chunks.length, chunks := some req.chunks } := by
          rw [← ht]
          rfl
        have hreached : InitReached env.toEnv req :=
          ⟨haccel, hne, harray, ⟨ctx, hctx, by simpa using hguilty⟩, hcopied, hchunksOk⟩
        refine wp_mono (parserInitChunks_balance hread (by rw [hown]; rfl) (by rw [hparser])
          (by rw [hparser]; rfl) (by rw [hown, hparser]; exact ⟨rfl, rfl⟩)
          (by rw [hown, hparser]; exact ⟨rfl, rfl⟩)) fun r u hu => ?_
        obtain ⟨lost, hlost, hlost', hzero⟩ := hu.lost
        refine ⟨?_, ⟨lost, ?_, hlost'.congr ?_, hzero⟩, ?_, hu.list, hu.uf, hu.boList⟩
        · rw [hu.ok]
          constructor
          · rintro ⟨haccepted, hibs, hjob, hvram⟩
            refine ⟨hreached, haccepted, hibs, hjob, fun ctx' hctx' => ?_⟩
            rw [hctx] at hctx'
            exact Option.some.inj hctx' ▸ hvram
          · intro hok
            exact ⟨hok.accepted, hok.ibs, hok.job, hok.vram ctx hctx⟩
        · rw [extra_add, hlost, hextra, Pi.single_neg]
          abel
        · simp [hreached]
        · obtain ⟨h₁, h₂, h₃⟩ := hu.own
          rw [hown] at h₁ h₂ h₃
          exact ⟨h₁, h₂, h₃⟩
      · refine hfail _ _ (fun h => ?_) rfl ?_
        · simp [h.chunksOk] at hchunksOk
        · simp [State.extra, State.held, State.start, State.add, State.setOwn, State.setParser,
            Owned.zero, Parser.zero, Pi.single_neg]
          abel
      · refine hfail _ _ (fun h => ?_) rfl ?_
        · simp [h.copied] at hcopied
        · simp [State.extra, State.held, State.start, State.add, State.setOwn, State.setParser,
            Owned.zero, Parser.zero, Pi.single_neg]
          abel
      · refine hfail _ _ (fun h => ?_) rfl ?_
        · obtain ⟨ctx', hctx', hnot⟩ := h.ctx
          rw [hctx] at hctx'
          obtain rfl := Option.some.inj hctx'
          simp [hnot] at hguilty
        · simp [State.extra, State.held, State.start, State.add, State.setOwn, State.setParser,
            Owned.zero, Parser.zero, Pi.single_neg]
          abel
  · exact hfail _ _ (fun h => by simp [h.chunkArray] at harray) rfl rfl

end Gsgpu.Cs.References
