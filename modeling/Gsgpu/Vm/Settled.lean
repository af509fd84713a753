import Gsgpu.Vm.Writes

/-! The mappings whose entries are up to date, and how the operations on a VM keep track of the
`bo_va`s for which some are not. -/
namespace Gsgpu.Vm

/-- The entry shows the BO's current backing at a byte offset. A BO that the GPU cannot reach
has none, and neither has the PRT `bo_va`. -/
def Current (bo : Option Bo) (offset : ℕ) (e : Pte) : Prop :=
  match bo with
  | none => e.present = false
  | some bo =>
    if bo.mem.resident then e.present = true ∧ e.addr = bo.mem.pageAddr (offset / pageSize)
    else e.present = false

/-- The byte offset in its BO that a mapping shows at `p`. -/
def Mapping.offsetAt (m : Mapping) (p : ℕ) : ℕ := m.offset + (p - m.start) * gpuPageSize

/-- Every entry of the mapping is current, and none waits to be cleared. -/
def Settled (s : State) (m : Mapping) : Prop :=
  ∀ p, m.Covers p → Current (s.boOf m.boVa) (m.offsetAt p) (s.pte p) ∧ ∀ f ∈ s.freed, ¬ f.Covers p

theorem Settled.of_eq {s s' : State} {m : Mapping} (h : Settled s m)
    (hbo : s'.boOf m.boVa = s.boOf m.boVa) (hpte : ∀ p, m.Covers p → s'.pte p = s.pte p)
    (hfreed : ∀ f ∈ s'.freed, ∀ p, m.Covers p → f.Covers p → f ∈ s.freed) : Settled s' m := by
  intro p hp
  obtain ⟨hcur, hno⟩ := h p hp
  constructor
  · rw [hbo, hpte p hp]
    exact hcur
  · intro f hf hcov
    exact hno f (hfreed f hf p hp hcov) hcov

theorem updateSource_present (bo : Bo) :
    (updateSource (some bo) false).1.testBit 0 = bo.mem.resident := by
  have hcompressed := compressed_testBit bo.flags
  simp only [updateSource, ttmTtPteFlags, Nat.testBit_or, hcompressed]
  cases hmem : bo.mem <;> cases bo.readonly <;> simp [Mem.resident]

/-- What a full update writes is current. -/
theorem Entry.current {bo : Option Bo} {m : Mapping} {p : ℕ} {e : Pte}
    (h : Entry (updateSource bo false).2 (updateSource bo false).1 m p e) :
    Current bo (m.offsetAt p) e := by
  obtain ⟨hpresent, haddr⟩ := h
  have hpage : m.offsetAt p / pageSize = m.offset / pageSize + (p - m.start) := by
    unfold Mapping.offsetAt pageSize gpuPageSize gpuPageShift
    omega
  cases bo with
  | none =>
    rw [Current, hpresent]
    simp [updateSource]
  | some bo =>
    rw [updateSource_present] at hpresent
    unfold Current
    rw [hpresent, hpage]
    cases hmem : bo.mem with
    | system => simp [Mem.resident, hmem]
    | tt dma =>
      have := haddr (by simp [updateSource, hmem])
      simpa [updateSource, hmem, Source.addr, Mem.resident, Mem.pageAddr] using this
    | vram nodes =>
      have := haddr (by simp [updateSource, hmem])
      simpa [updateSource, hmem, Source.addr, Mem.resident, Mem.pageAddr] using this

/-- What holds of a VM between its operations. `queued` are the `bo_va`s that a submission still
comes to: a per-VM BO that is not among them has settled mappings only. -/
structure Synced (queued : Key → Prop) (s : State) : Prop where
  tidy : Tidy maxPfn s
  offsets : ∀ m ∈ s.va, m.offset < 2 ^ 64
  valids : ∀ k b, s.boVas k = some b → b.moved = false → b.cleared = false →
    ∀ m ∈ b.valids, Settled s m
  settled : ∀ k, s.perVm k = true → ¬ queued k → ∀ m ∈ s.va, m.boVa = k → Settled s m
  flagged : ∀ k b, s.boVas k = some b → s.perVm k = true → b.moved = true → queued k
  kept : ∀ k b, s.boVas k = some b → s.perVm k = true → b.cleared = false

namespace Synced
variable {queued queued' : Key → Prop} {s s' : State}

theorem mono (h : Synced queued s) (hq : ∀ k, s.perVm k = true → queued k → queued' k) :
    Synced queued' s := by
  constructor
  · exact h.tidy
  · exact h.offsets
  · exact h.valids
  · exact fun k hk hno => h.settled k hk fun hk' => hno (hq k hk hk')
  · exact fun k b hb hk hm => hq k hk (h.flagged k b hb hk hm)
  · exact h.kept

theorem bounds (h : Synced queued s) {m : Mapping} (hm : m ∈ s.va) :
    m.start ≤ m.last ∧ m.last < 2 ^ 50 := by
  have := h.tidy.bounds m hm
  have hmax : maxPfn = 2 ^ 26 := rfl
  omega

theorem mem_va (h : Synced queued s) {k : Key} {b : BoVa} (hb : s.boVas k = some b) {m : Mapping}
    (hm : m ∈ b.valids ++ b.invalids) : m ∈ s.va ∧ m.boVa = k := by
  apply h.tidy.listed.mem_of_mem_lists
  rwa [listsOf, hb]

/-- A state that differs in nothing that matters here. -/
theorem of_eq (h : Synced queued s) (hva : s'.va = s.va) (hbo : s'.boVas = s.boVas)
    (hfreed : s'.freed = s.freed) (hpte : s'.pte = s.pte) (hbos : s'.bos = s.bos) :
    Synced queued s' := by
  have hsettled : ∀ m, Settled s m → Settled s' m := by
    intro m hm
    apply hm.of_eq
    · rw [State.boOf, State.boOf, hbos]
    · simp [hpte]
    · simp +contextual [hfreed]
  have hper : ∀ k, s'.perVm k = s.perVm k := by
    intro k
    cases k <;> simp [State.perVm, hbos]
  constructor
  · exact (SameLists.of_eq hva hbo).tidy h.tidy
  · rw [hva]
    exact h.offsets
  · rw [hbo]
    exact fun k b hb hm hc m hv => hsettled m (h.valids k b hb hm hc m hv)
  · rw [hva]
    exact fun k hk hno m hm hmk => hsettled m (h.settled k (hper k ▸ hk) hno m hm hmk)
  · rw [hbo]
    exact fun k b hb hk hm => h.flagged k b hb (hper k ▸ hk) hm
  · rw [hbo]
    exact fun k b hb hk => h.kept k b hb (hper k ▸ hk)

end Synced

section Update
variable {queued : Key → Prop} {env : UpdateEnv} {s : State} {k : Key} {clear : Bool} {budget : ℕ}
  {r : Result State}

/-- What `gsgpu_vm_bo_update` leaves of a `bo_va` that is there. -/
theorem vmBoUpdate_cases {b : BoVa} (hb : s.boVas k = some b)
    (h : vmBoUpdate env s k clear budget = some r) : ∃ u,
      updateMappings env (updateSource (s.boOf k) clear).1 (updateSource (s.boOf k) clear).2
        (b.prepare clear).invalids budget s.pte = some u ∧ r.ok = u.ok ∧ r.val =
      if u.ok then { s.setBoVa k { b.prepare clear with
          cleared := clear, valids := (b.prepare clear).invalids ++ (b.prepare clear).valids,
          invalids := [] } with pte := u.val, status := statusAfterUpdate s k }
      else { s.setBoVa k (b.prepare clear) with pte := u.val } := by
  unfold vmBoUpdate at h
  simp only [hb] at h
  split at h
  · cases h
  · rename_i hu
    cases h
    exact ⟨_, hu, rfl, rfl⟩
  · rename_i hu
    cases h
    exact ⟨_, hu, rfl, rfl⟩

theorem prepare_mem {b : BoVa} {m : Mapping} (h : m ∈ (b.prepare clear).invalids) :
    m ∈ b.valids ++ b.invalids :=
  (b.prepare_perm clear).mem_iff.mp (List.mem_append_right _ h)

theorem BoVa.prepare_moved (b : BoVa) : (b.prepare false).moved = false := by
  cases hm : b.moved <;> cases hc : b.cleared <;> simp [BoVa.prepare, hm, hc]

theorem vmBoUpdate_of_none (hb : s.boVas k = none)
    (hr : vmBoUpdate env s k clear budget = some r) : r = ⟨true, budget, s⟩ := by
  unfold vmBoUpdate at hr
  rw [hb] at hr
  exact (Option.some.inj hr).symm

/-- An update changes nothing outside the mappings it starts out with as invalid. -/
theorem vmBoUpdate_frame {b : BoVa} (h : Synced queued s) (henv : env.Bounded)
    (hb : s.boVas k = some b) (hr : vmBoUpdate env s k clear budget = some r) {p : ℕ}
    (hp : ∀ m ∈ (b.prepare clear).invalids, ¬ m.Covers p) : r.val.pte p = s.pte p := by
  obtain ⟨u, hu, -, hval⟩ := vmBoUpdate_cases hb hr
  have hbounds : ∀ m ∈ (b.prepare clear).invalids, m.start ≤ m.last ∧ m.last < 2 ^ 50 :=
    fun m hm => h.bounds (h.mem_va hb (prepare_mem hm)).1
  have hframe := updateMappings_frame henv hbounds hu hp
  rw [hval]
  split_ifs <;> exact hframe

theorem vmBoUpdate_bos (hr : vmBoUpdate env s k clear budget = some r) : r.val.bos = s.bos := by
  cases hb : s.boVas k with
  | none => rw [vmBoUpdate_of_none hb hr]
  | some b =>
    obtain ⟨u, -, -, hval⟩ := vmBoUpdate_cases hb hr
    rw [hval]
    split_ifs <;> rfl

/-- What a full update writes, or has written when it gets to the end, is current. -/
theorem vmBoUpdate_current {b : BoVa} (h : Synced queued s) (henv : env.Bounded)
    (hb : s.boVas k = some b) (hr : vmBoUpdate env s k false budget = some r) {m : Mapping}
    (hm : m ∈ (b.prepare false).invalids) {p : ℕ} (hp : m.Covers p)
    (hok : r.ok = true ∨ r.val.pte p ≠ s.pte p) :
    Current (s.boOf k) (m.offsetAt p) (r.val.pte p) := by
  obtain ⟨u, hu, hrok, hval⟩ := vmBoUpdate_cases hb hr
  have hmem : ∀ m ∈ (b.prepare false).invalids, m ∈ s.va ∧ m.boVa = k :=
    fun m hm => h.mem_va hb (prepare_mem hm)
  have hpte : r.val.pte = u.val := by
    rw [hval]
    split_ifs <;> rfl
  have hdisj : (b.prepare false).invalids.Pairwise Mapping.Disjoint := by
    have hall : ((b.prepare false).valids ++ (b.prepare false).invalids).Pairwise
        Mapping.Disjoint := by
      apply pairwise_perm (b.prepare_perm false).symm
      have := pairwise_perm (h.tidy.listed k).symm (h.tidy.disjoint.filter _)
      rwa [listsOf, hb] at this
    exact (List.pairwise_append.mp hall).2.1
  rw [hpte] at hok ⊢
  rw [hrok] at hok
  apply Entry.current
  exact updateMappings_content henv
    (fun m hm => ⟨h.bounds (hmem m hm).1, h.offsets m (hmem m hm).1⟩) hdisj hu hok hm hp

/-- An update of another `bo_va`, and a full update, leave what is settled so. -/
theorem Synced.settled_update (h : Synced queued s) (henv : env.Bounded)
    (hr : vmBoUpdate env s k clear budget = some r) {m : Mapping} (hm : m ∈ s.va)
    (hk : m.boVa = k → clear = false) (hs : Settled s m) : Settled r.val m := by
  have hboOf : r.val.boOf m.boVa = s.boOf m.boVa := by
    rw [State.boOf, State.boOf, vmBoUpdate_bos hr]
  intro p hp
  obtain ⟨hcur, hno⟩ := hs p hp
  rw [hboOf, vmBoUpdate_freed hr]
  refine ⟨?_, hno⟩
  cases hb : s.boVas k with
  | none =>
    rw [vmBoUpdate_of_none hb hr]
    exact hcur
  | some b =>
    by_cases heq : r.val.pte p = s.pte p
    · rw [heq]
      exact hcur
    · -- changed, so by an update of this very mapping
      have hex : ∃ m' ∈ (b.prepare clear).invalids, m'.Covers p := by
        by_contra hno'
        push Not at hno'
        exact heq (vmBoUpdate_frame h henv hb hr hno')
      obtain ⟨m', hm', hcov⟩ := hex
      obtain ⟨hva, hk'⟩ := h.mem_va hb (prepare_mem hm')
      obtain rfl : m = m' := by
        rcases h.tidy.spaced.eq_or_disjoint hm hva with rfl | hd
        · rfl
        · exact absurd hcov (hd.not_covers hp)
      have hclear := hk hk'
      subst hclear
      rw [hk']
      exact vmBoUpdate_current h henv hb hr hm' hp (.inr heq)

/-- A full update that gets to the end settles every mapping of its `bo_va`. -/
theorem Synced.settled_of_update (h : Synced queued s) (henv : env.Bounded)
    (hfreed : s.freed = []) (hr : vmBoUpdate env s k false budget = some r) (hok : r.ok = true)
    {m : Mapping} (hm : m ∈ s.va) (hk : m.boVa = k) : Settled r.val m := by
  subst hk
  obtain ⟨b, hb, hmem⟩ := h.tidy.listed.live hm
  rcases List.mem_append.mp ((b.prepare_perm false).mem_iff.mpr hmem) with hv | hi
  · -- still valid, so neither moved nor cleared
    have hsame : b.moved = false ∧ b.cleared = false ∧ m ∈ b.valids := by
      unfold BoVa.prepare at hv
      cases hmv : b.moved <;> cases hcl : b.cleared <;> simp [hmv, hcl] at hv ⊢
      exact hv
    exact h.settled_update henv hr hm (fun _ => rfl)
      (h.valids _ b hb hsame.1 hsame.2.1 m hsame.2.2)
  · intro p hp
    rw [vmBoUpdate_freed hr, hfreed]
    constructor
    · rw [State.boOf, vmBoUpdate_bos hr]
      exact vmBoUpdate_current h henv hb hr hi hp (.inl hok)
    · simp


/-- The flags of a `bo_va` and its valid list after an update. -/
theorem vmBoUpdate_boVas (hr : vmBoUpdate env s k clear budget = some r) {k' : Key} {b' : BoVa}
    (hb' : r.val.boVas k' = some b') :
    (k' ≠ k ∧ s.boVas k' = some b') ∨ (k' = k ∧ ∃ b, s.boVas k = some b ∧
      b'.moved = (b.prepare clear).moved ∧
      ((r.ok = true ∧ b'.cleared = clear) ∨ (r.ok = false ∧ b'.cleared = b.cleared ∧
        b'.valids = (b.prepare clear).valids))) := by
  by_cases hk : k' = k
  · subst hk
    right
    cases hb : s.boVas k' with
    | none =>
      rw [vmBoUpdate_of_none hb hr, hb] at hb'
      cases hb'
    | some b =>
      obtain ⟨u, -, hok, hval⟩ := vmBoUpdate_cases hb hr
      have hcl : (b.prepare clear).cleared = b.cleared := by
        unfold BoVa.prepare
        split_ifs <;> rfl
      rw [hval] at hb'
      cases huok : u.ok with
      | true =>
        simp only [huok, if_true, State.setBoVa, Function.update_self, Option.some.injEq] at hb'
        subst hb'
        exact ⟨rfl, b, rfl, rfl, .inl ⟨hok.trans huok, rfl⟩⟩
      | false =>
        simp only [huok, State.setBoVa, Bool.false_eq_true, if_false, Function.update_self,
          Option.some.injEq] at hb'
        subst hb'
        exact ⟨rfl, b, rfl, rfl, .inr ⟨hok.trans huok, hcl, rfl⟩⟩
  · left
    refine ⟨hk, ?_⟩
    cases hb : s.boVas k with
    | none =>
      rw [vmBoUpdate_of_none hb hr] at hb'
      exact hb'
    | some b =>
      obtain ⟨u, -, -, hval⟩ := vmBoUpdate_cases hb hr
      rw [hval] at hb'
      split_ifs at hb' <;> simpa [State.setBoVa, Function.update_of_ne hk] using hb'

theorem perVm_congr {s s' : State} (h : s'.bos = s.bos) (k : Key) : s'.perVm k = s.perVm k := by
  cases k <;> simp [State.perVm, h]

/-- An update keeps everything in step, whether it gets to the end or not. -/
theorem Synced.update (h : Synced queued s) (henv : env.Bounded) (hfreed : s.freed = [])
    (hclear : clear = true → s.perVm k = false)
    (hr : vmBoUpdate env s k clear budget = some r) : Synced queued r.val := by
  have hsame := sameLists_vmBoUpdate hr
  have hper := perVm_congr (vmBoUpdate_bos hr)
  constructor
  · exact hsame.tidy h.tidy
  · rw [hsame.va]
    exact h.offsets
  · intro k' b' hb' hm hc m hmv
    have hva : m ∈ r.val.va ∧ m.boVa = k' := by
      apply (hsame.tidy h.tidy).listed.mem_of_mem_lists
      rw [listsOf, hb']
      exact List.mem_append_left _ hmv
    rw [hsame.va] at hva
    rcases vmBoUpdate_boVas hr hb' with ⟨hk, hb⟩ | ⟨rfl, b, hb, hmoved, hend⟩
    · apply h.settled_update henv hr hva.1 (fun hk' => absurd (hva.2.symm.trans hk') hk)
      exact h.valids k' b' hb hm hc m hmv
    · rcases hend with ⟨hok, hcl⟩ | ⟨hok, hcl, hval⟩
      · obtain rfl : clear = false := hcl.symm.trans hc
        exact h.settled_of_update henv hfreed hr hok hva.1 hva.2
      · -- the valid list is only kept when the kind of update has not changed
        rw [hcl] at hc
        rw [hval] at hmv
        have hkept : clear = false ∧ b.moved = false ∧ m ∈ b.valids := by
          unfold BoVa.prepare at hmv hmoved
          cases hbm : b.moved <;> cases clear <;> simp [hbm, hc] at hmv hmoved ⊢
          · exact hmv
        apply h.settled_update henv hr hva.1 (fun _ => hkept.1)
        exact h.valids k' b hb hkept.2.1 hc m hkept.2.2
  · rw [hsame.va]
    intro k' hk' hno m hm hmk
    rw [hper] at hk'
    apply h.settled_update henv hr hm
    · intro hmk'
      rw [← hmk, hmk'] at hk'
      cases clear with
      | false => rfl
      | true => exact absurd hk' (by simp [hclear rfl])
    · exact h.settled k' hk' hno m hm hmk
  · intro k' b' hb' hk' hm
    rw [hper] at hk'
    rcases vmBoUpdate_boVas hr hb' with ⟨hk, hb⟩ | ⟨rfl, b, hb, hmoved, -⟩
    · exact h.flagged k' b' hb hk' hm
    · cases hcl : clear with
      | true => exact absurd hk' (by simp [hclear hcl])
      | false =>
        rw [hmoved, hcl, b.prepare_moved] at hm
        cases hm
  · intro k' b' hb' hk'
    rw [hper] at hk'
    rcases vmBoUpdate_boVas hr hb' with ⟨hk, hb⟩ | ⟨rfl, b, hb, -, hend⟩
    · exact h.kept k' b' hb hk'
    · rcases hend with ⟨-, hcl⟩ | ⟨-, hcl, -⟩
      · rw [hcl]
        cases hclr : clear with
        | true => exact absurd hk' (by simp [hclear hclr])
        | false => rfl
      · rw [hcl]
        exact h.kept k' b hb hk'


theorem Synced.update_ok (h : Synced queued s) (henv : env.Bounded) (hfreed : s.freed = [])
    (hr : vmBoUpdate env s k false budget = some r) (hok : r.ok = true) :
    Synced (fun k' => queued k' ∧ k' ≠ k) r.val := by
  have hall := h.update henv hfreed (fun hc => by cases hc) hr
  constructor
  · exact hall.tidy
  · exact hall.offsets
  · exact hall.valids
  · intro k' hk' hno m hm hmk
    by_cases hkk : k' = k
    · rw [(sameLists_vmBoUpdate hr).va] at hm
      exact h.settled_of_update henv hfreed hr hok hm (hmk.trans hkk)
    · exact hall.settled k' hk' (fun hq => hno ⟨hq, hkk⟩) m hm hmk
  · intro k' b' hb' hk' hm
    refine ⟨hall.flagged k' b' hb' hk' hm, ?_⟩
    rintro rfl
    rcases vmBoUpdate_boVas hr hb' with ⟨hk, -⟩ | ⟨-, b, -, hmoved, -⟩
    · exact hk rfl
    · rw [hmoved, b.prepare_moved] at hm
      cases hm
  · exact hall.kept

end Update

section Operations
variable {queued queued' : Key → Prop} {s s' : State}

/-- A clear of freed mappings, also one that fails, only reaches what waits to be cleared. -/
theorem clearFreedLoop_frame (freed : List Mapping) (budget : ℕ) (pte : ℕ → Pte) :
    (∀ f ∈ (clearFreedLoop freed budget pte).val.1, f ∈ freed) ∧
      ∀ p, (∀ f ∈ freed, ¬ f.Covers p) → (clearFreedLoop freed budget pte).val.2 p = pte p := by
  induction freed generalizing budget pte with
  | nil => exact ⟨fun f hf => hf, fun p _ => rfl⟩
  | cons f fs ih =>
    unfold clearFreedLoop
    split_ifs
    · exact ⟨fun f' hf' => List.mem_cons_of_mem _ hf', fun p _ => rfl⟩
    · obtain ⟨hsub, hframe⟩ := ih (budget - 1) (vmBoUpdateMapping pte none f.start f.last 0 0)
      constructor
      · exact fun f' hf' => List.mem_cons_of_mem _ (hsub f' hf')
      · intro p hp
        rw [hframe p (fun f' hf' => hp f' (List.mem_cons_of_mem _ hf'))]
        exact vmBoUpdateMapping_of_not_mem (hp f List.mem_cons_self)

theorem clearFreedLoop_ok {freed : List Mapping} {budget : ℕ} {pte : ℕ → Pte}
    (h : (clearFreedLoop freed budget pte).ok = true) :
    (clearFreedLoop freed budget pte).val.1 = [] := by
  induction freed generalizing budget pte with
  | nil => rfl
  | cons f fs ih =>
    by_cases hb : budget = 0
    · simp [clearFreedLoop, hb] at h
    · simp only [clearFreedLoop, if_neg hb] at h ⊢
      exact ih h

theorem Settled.clearFreed {m : Mapping} (h : Settled s m) (budget : ℕ) :
    Settled (vmClearFreed s budget).val m := by
  obtain ⟨hsub, hframe⟩ := clearFreedLoop_frame s.freed budget s.pte
  have hbo : (vmClearFreed s budget).val.boOf m.boVa = s.boOf m.boVa := rfl
  apply h.of_eq hbo
  · exact fun p hp => hframe p (h p hp).2
  · exact fun f hf _ _ _ => hsub f hf

theorem Synced.clearFreed (h : Synced queued s) (budget : ℕ) :
    Synced queued (vmClearFreed s budget).val := by
  constructor
  · exact (sameLists_vmClearFreed s budget).tidy h.tidy
  · exact h.offsets
  · exact fun k b hb hm hc m hmv => (h.valids k b hb hm hc m hmv).clearFreed budget
  · exact fun k hk hno m hm hmk => (h.settled k hk hno m hm hmk).clearFreed budget
  · exact h.flagged
  · exact h.kept

/-- The `bo_va`s of `boVas'` are those of `boVas`, with their flags, and with fewer valid
mappings. -/
def Shrinks (boVas boVas' : Key → Option BoVa) : Prop :=
  ∀ k b', boVas' k = some b' → ∃ b, boVas k = some b ∧ b'.moved = b.moved ∧
    b'.cleared = b.cleared ∧ ∀ m ∈ b'.valids, m ∈ b.valids

theorem Shrinks.refl (boVas : Key → Option BoVa) : Shrinks boVas boVas :=
  fun _ b hb => ⟨b, hb, rfl, rfl, fun _ hm => hm⟩

theorem Shrinks.trans {a b c : Key → Option BoVa} (h : Shrinks a b) (h' : Shrinks b c) :
    Shrinks a c := by
  intro k v hv
  obtain ⟨v₁, h₁, hm₁, hc₁, hs₁⟩ := h' k v hv
  obtain ⟨v₂, h₂, hm₂, hc₂, hs₂⟩ := h k v₁ h₁
  exact ⟨v₂, h₂, hm₁.trans hm₂, hc₁.trans hc₂, fun m hm => hs₂ m (hs₁ m hm)⟩

theorem Shrinks.update {boVas : Key → Option BoVa} {k : Key} {b b' : BoVa}
    (hb : boVas k = some b) (hm : b'.moved = b.moved) (hc : b'.cleared = b.cleared)
    (hv : ∀ m ∈ b'.valids, m ∈ b.valids) : Shrinks boVas (Function.update boVas k (some b')) := by
  intro k' b'' hb''
  by_cases hk : k' = k
  · subst hk
    rw [Function.update_self] at hb''
    cases hb''
    exact ⟨b, hb, hm, hc, hv⟩
  · rw [Function.update_of_ne hk] at hb''
    exact ⟨b'', hb'', rfl, rfl, fun _ h => h⟩

theorem Shrinks.addInvalid (boVas : Key → Option BoVa) (m : Mapping) :
    Shrinks boVas (addInvalid boVas m) := by
  unfold Vm.addInvalid
  cases hb : boVas m.boVa with
  | none => exact .refl boVas
  | some b => exact .update hb rfl rfl fun _ h => h

theorem Shrinks.delMapping (boVas : Key → Option BoVa) (m : Mapping) :
    Shrinks boVas (delMapping boVas m) := by
  unfold Vm.delMapping
  cases hb : boVas m.boVa with
  | none => exact .refl boVas
  | some b =>
    by_cases hm : m ∈ b.valids
    · simp only [if_pos hm]
      exact .update hb rfl rfl fun _ h => List.mem_of_mem_erase h
    · simp only [if_neg hm]
      exact .update hb rfl rfl fun _ h => h

theorem Shrinks.clearRange (s : State) (f l : ℕ) : Shrinks s.boVas (clearRange s f l).boVas := by
  have hfold : ∀ (tmps : List Mapping) (acc : ClearAcc),
      Shrinks acc.boVas (tmps.foldl (clearStep f l) acc).boVas := by
    intro tmps
    induction tmps with
    | nil => exact fun acc => .refl acc.boVas
    | cons t ts ih =>
      intro acc
      have hbefore : Shrinks acc.boVas (keepBefore f acc t).boVas := by
        unfold keepBefore
        split_ifs
        · exact .addInvalid _ _
        · exact .refl _
      have hafter : Shrinks (keepBefore f acc t).boVas
          (keepAfter l (keepBefore f acc t) t).boVas := by
        unfold keepAfter
        split_ifs
        · exact .addInvalid _ _
        · exact .refl _
      exact ((hbefore.trans hafter).trans (.delMapping _ t)).trans (ih _)
  exact hfold _ _

/-- A mapping or what is left of its front. -/
def Mapping.FrontOf (m t : Mapping) : Prop :=
  m.boVa = t.boVa ∧ m.offset = t.offset ∧ m.start = t.start ∧ m.last ≤ t.last

theorem Mapping.FrontOf.refl (m : Mapping) : m.FrontOf m := ⟨rfl, rfl, rfl, le_refl _⟩

theorem Settled.front {m t : Mapping} (h : Settled s t) (hm : m.FrontOf t)
    (hpte : s'.pte = s.pte) (hbos : s'.bos = s.bos)
    (hfreed : ∀ f ∈ s'.freed, f ∈ s.freed ∨ ∀ p, m.Covers p → ¬ f.Covers p) : Settled s' m := by
  obtain ⟨hk, hoff, hstart, hlast⟩ := hm
  intro p hp
  have hpt : t.Covers p := by
    unfold Mapping.Covers at *
    omega
  obtain ⟨hcur, hno⟩ := h p hpt
  constructor
  · rw [hpte, State.boOf, hbos, hk, Mapping.offsetAt, hoff, hstart]
    exact hcur
  · intro f hf hcov
    rcases hfreed f hf with hf | hdisj
    · exact hno f hf hcov
    · exact hdisj p hp hcov

/-- An operation on the mappings: what it leaves in the tree is the front of a mapping that was
there, or of a `bo_va` that is queued, and what it frees is away from the tree. -/
theorem Synced.change (h : Synced queued s) (htidy : Tidy maxPfn s')
    (hoff : ∀ m ∈ s'.va, m.offset < 2 ^ 64) (hbo : Shrinks s.boVas s'.boVas)
    (hpte : s'.pte = s.pte) (hbos : s'.bos = s.bos)
    (hva : ∀ m ∈ s'.va, (s.perVm m.boVa = true → queued m.boVa) ∨ ∃ t ∈ s.va, m.FrontOf t)
    (hfreed : ∀ f ∈ s'.freed, f ∈ s.freed ∨ ∀ m ∈ s'.va, ∀ p, m.Covers p → ¬ f.Covers p) :
    Synced queued s' := by
  have hper := perVm_congr hbos
  have hsettled : ∀ m ∈ s'.va, ∀ t, Settled s t → m.FrontOf t → Settled s' m := by
    intro m hm t ht hfront
    apply ht.front hfront hpte hbos
    intro f hf
    rcases hfreed f hf with hf | hdisj
    · exact .inl hf
    · exact .inr fun p hp => hdisj m hm p hp
  constructor
  · exact htidy
  · exact hoff
  · intro k b' hb' hm hc m hmv
    obtain ⟨b, hb, hmoved, hcleared, hsub⟩ := hbo k b' hb'
    have hmem : m ∈ s'.va := by
      apply (htidy.listed.mem_of_mem_lists (k := k) _).1
      rw [listsOf, hb']
      exact List.mem_append_left _ hmv
    exact hsettled m hmem m (h.valids k b hb (hmoved ▸ hm) (hcleared ▸ hc) m (hsub m hmv)) (.refl m)
  · intro k hk hno m hm hmk
    rw [hper] at hk
    rcases hva m hm with hq | ⟨t, ht, hfront⟩
    · exact absurd (hmk ▸ hq (hmk ▸ hk)) hno
    · exact hsettled m hm t (h.settled k hk hno t ht (hfront.1.symm.trans hmk)) hfront
  · intro k b' hb' hk hm
    obtain ⟨b, hb, hmoved, -⟩ := hbo k b' hb'
    exact h.flagged k b hb (hper k ▸ hk) (hmoved ▸ hm)
  · intro k b' hb' hk
    obtain ⟨b, hb, -, hcleared, -⟩ := hbo k b' hb'
    rw [hcleared]
    exact h.kept k b hb (hper k ▸ hk)

theorem Synced.insertMap (h : Synced queued s) {m : Mapping} (hoff : m.offset < 2 ^ 64)
    (htidy : Tidy maxPfn (vmBoInsertMap s m)) (hq : s.perVm m.boVa = true → queued m.boVa) :
    Synced queued (vmBoInsertMap s m) := by
  have hmem : ∀ m' ∈ (vmBoInsertMap s m).va, m' = m ∨ m' ∈ s.va := by
    intro m' hm'
    rw [vmBoInsertMap_va, (vmItInsert_perm m s.va).mem_iff] at hm'
    exact List.mem_cons.mp hm'
  apply h.change htidy
  · intro m' hm'
    rcases hmem m' hm' with rfl | hm'
    · exact hoff
    · exact h.offsets m' hm'
  · rw [vmBoInsertMap_boVas]
    exact .addInvalid s.boVas m
  · exact vmBoInsertMap_pte s m
  · exact vmBoInsertMap_bos s m
  · intro m' hm'
    rcases hmem m' hm' with rfl | hm'
    · exact .inl hq
    · exact .inr ⟨m', hm', .refl m'⟩
  · rw [vmBoInsertMap_freed]
    exact fun f hf => .inl hf

/-- No mapping goes on after the end of the range. -/
def NoTail (s : State) (f l : ℕ) : Prop := ∀ m ∈ vmItIter s.va f l, m.last ≤ l

theorem NoTail.noWrap {f l : ℕ} (h : NoTail s f l) : NoWrap s f l := by
  cases hit : vmItIter s.va f l with
  | nil => exact .inr hit
  | cons m ms =>
    left
    have hm : m ∈ vmItIter s.va f l := by simp [hit]
    have := h m hm
    have := mem_vmItIter.mp hm
    omega

theorem Tidy.mem_clearRange_front {bound f l : ℕ} (h : Tidy bound s) (ht : NoTail s f l)
    {m : Mapping} (hm : m ∈ (Vm.clearRange s f l).va) : ∃ t ∈ s.va, m.FrontOf t := by
  rcases h.spaced.mem_clearRange.mp hm with ⟨t, hit, hl, -⟩ | ⟨t, hit, hs, rfl⟩ | ⟨hm, -⟩
  · exact absurd (ht t hit) (by omega)
  · have hle := mem_vmItIter.mp hit
    have hfront : (beforePart f t).last ≤ t.last := by
      unfold beforePart
      dsimp only
      omega
    exact ⟨t, hle.1, rfl, rfl, rfl, hfront⟩
  · exact ⟨m, hm, .refl m⟩

theorem Synced.clearRange (h : Synced queued s) {f l : ℕ} (ht : NoTail s f l) :
    Synced queued (clearRange s f l) := by
  have hfree := h.tidy.clearRange_free (f := f) (l := l)
  apply h.change (h.tidy.clearRange ht.noWrap)
  · intro m hm
    obtain ⟨t, ht, hfront⟩ := h.tidy.mem_clearRange_front ht hm
    rw [hfront.2.1]
    exact h.offsets t ht
  · exact .clearRange s f l
  · rfl
  · rfl
  · exact fun m hm => .inr (h.tidy.mem_clearRange_front ht hm)
  · intro f' hf'
    rcases List.mem_append.mp hf' with hf' | hf'
    · right
      obtain ⟨t, -, rfl⟩ := List.mem_map.mp hf'
      intro m hm p hp hcov
      apply hfree m hm
      unfold clip Mapping.Covers at hcov
      unfold Mapping.Covers at hp
      unfold Mapping.Overlaps
      dsimp only at hcov
      omega
    · exact .inl hf'

theorem Synced.unmap (h : Synced queued s) (k : Key) (saddr : ℕ) :
    Synced queued (vmBoUnmap s k saddr).2 := by
  have htidy := h.tidy.vmBoUnmap k saddr
  revert htidy
  unfold vmBoUnmap
  cases hb : s.boVas k with
  | none => exact fun _ => h
  | some b =>
    dsimp only
    split
    · rename_i m hm
      intro htidy
      have hmva := (h.mem_va hb (List.mem_append_left _ (List.mem_of_find?_eq_some hm))).1
      apply h.change htidy
      · exact fun m' hm' => h.offsets m' (List.mem_of_mem_erase hm')
      · exact .delMapping s.boVas m
      · rfl
      · rfl
      · exact fun m' hm' => .inr ⟨m', List.mem_of_mem_erase hm', .refl m'⟩
      · intro f hf
        rcases List.mem_cons.mp hf with rfl | hf
        · right
          intro m' hm' p hp
          obtain ⟨hne, hm'⟩ := (h.tidy.spaced.nodup.mem_erase_iff).mp hm'
          rcases h.tidy.spaced.eq_or_disjoint hm' hmva with heq | hd
          · exact absurd heq hne
          · exact hd.not_covers hp
        · exact .inl hf
    · split
      · rename_i m hm
        intro htidy
        apply h.change htidy
        · exact fun m' hm' => h.offsets m' (List.mem_of_mem_erase hm')
        · exact .delMapping s.boVas m
        · rfl
        · rfl
        · exact fun m' hm' => .inr ⟨m', List.mem_of_mem_erase hm', .refl m'⟩
        · exact fun f hf => .inl hf
      · exact fun _ => h

theorem Synced.rmv (h : Synced queued s) (k : Key) : Synced queued (vmBoRmv s k) := by
  have htidy := h.tidy.vmBoRmv k
  revert htidy
  unfold vmBoRmv
  cases hb : s.boVas k with
  | none => exact fun _ => h
  | some b =>
    dsimp only
    rw [h.tidy.foldl_erase_lists hb]
    intro htidy
    apply h.change htidy
    · exact fun m hm => h.offsets m (List.mem_of_mem_filter hm)
    · intro k' b' hb'
      by_cases hk : k' = k
      · subst hk
        simp at hb'
      · dsimp only at hb'
        rw [Function.update_of_ne hk] at hb'
        exact ⟨b', hb', rfl, rfl, fun _ hm => hm⟩
    · rfl
    · rfl
    · exact fun m hm => .inr ⟨m, List.mem_of_mem_filter hm, .refl m⟩
    · intro f hf
      rcases List.mem_append.mp hf with hf | hf
      · right
        obtain ⟨hfva, hfk⟩ := h.mem_va hb (List.mem_append_left _ (List.mem_reverse.mp hf))
        intro m hm p hp
        have hm' := List.mem_filter.mp hm
        rcases h.tidy.spaced.eq_or_disjoint hm'.1 hfva with rfl | hd
        · simp [hfk] at hm'
        · exact hd.not_covers hp
      · exact .inl hf


/-- A `bo_va` that is not there need not be queued. -/
theorem Synced.drop (h : Synced queued s) {k : Key} (hk : s.boVas k = none) :
    Synced (fun k' => queued k' ∧ k' ≠ k) s := by
  constructor
  · exact h.tidy
  · exact h.offsets
  · exact h.valids
  · intro k' hk' hno m hm hmk
    apply h.settled k' hk' _ m hm hmk
    intro hq
    apply hno
    refine ⟨hq, ?_⟩
    rintro rfl
    obtain ⟨b, hb, -⟩ := h.tidy.listed.live hm
    rw [hmk, hk] at hb
    cases hb
  · intro k' b' hb' hk' hm
    refine ⟨h.flagged k' b' hb' hk' hm, ?_⟩
    rintro rfl
    rw [hk] at hb'
    cases hb'
  · exact h.kept

theorem Synced.add (h : Synced queued s) {k : Key} (hk : s.boVas k = none) {b : BoVa}
    (hq : s.perVm k = true → b.moved = true → queued k) (hcl : b.cleared = false)
    (hlists : b.valids = [] ∧ b.invalids = []) : Synced queued (s.setBoVa k b) := by
  have hsame : SameLists s (s.setBoVa k b) := by
    have hperm : (b.valids ++ b.invalids).Perm (listsOf s.boVas k) := by
      simp [hlists.1, hlists.2, listsOf, hk]
    exact .setBoVa rfl rfl hperm
  have hper : ∀ k', (s.setBoVa k b).perVm k' = s.perVm k' := fun k' => by cases k' <;> rfl
  have hother : ∀ k' b', (s.setBoVa k b).boVas k' = some b' →
      (k' = k ∧ b' = b) ∨ s.boVas k' = some b' := by
    intro k' b' hb'
    by_cases hkk : k' = k
    · subst hkk
      simp only [State.setBoVa, Function.update_self, Option.some.injEq] at hb'
      exact .inl ⟨rfl, hb'.symm⟩
    · simp only [State.setBoVa, Function.update_of_ne hkk] at hb'
      exact .inr hb'
  constructor
  · exact hsame.tidy h.tidy
  · exact h.offsets
  · intro k' b' hb' hm hc m hmv
    rcases hother k' b' hb' with ⟨rfl, rfl⟩ | hb'
    · rw [hlists.1] at hmv
      cases hmv
    · exact h.valids k' b' hb' hm hc m hmv
  · exact fun k' hk' => h.settled k' (hper k' ▸ hk')
  · intro k' b' hb' hk' hm
    rcases hother k' b' hb' with ⟨rfl, rfl⟩ | hb'
    · exact hq (hper k' ▸ hk') hm
    · exact h.flagged k' b' hb' (hper k' ▸ hk') hm
  · intro k' b' hb' hk'
    rcases hother k' b' hb' with ⟨rfl, rfl⟩ | hb'
    · exact hcl
    · exact h.kept k' b' hb' (hper k' ▸ hk')

theorem perVm_of_update {b : ℕ} {bo : Bo} (hbos : s'.bos = Function.update s.bos b bo)
    (hper : bo.perVm = (s.bos b).perVm) (k : Key) : s'.perVm k = s.perVm k := by
  cases k with
  | none => rfl
  | some c =>
    by_cases hc : c = b
    · subst hc
      simpa [State.perVm, hbos] using hper
    · simp [State.perVm, hbos, Function.update_of_ne hc]

/-- A change of one BO does not concern the mappings of another. -/
theorem Settled.other {b : ℕ} {bo : Bo} {m : Mapping} (h : Settled s m)
    (hbos : s'.bos = Function.update s.bos b bo) (hm : m.boVa ≠ some b) (hpte : s'.pte = s.pte)
    (hfreed : s'.freed = s.freed) : Settled s' m := by
  apply h.of_eq
  · cases hk : m.boVa with
    | none => rfl
    | some c =>
      have hc : c ≠ b := fun hc => hm (by rw [hk, hc])
      simp [State.boOf, hbos, Function.update_of_ne hc]
  · exact fun _ _ => by rw [hpte]
  · exact fun _ hf _ _ _ => hfreed ▸ hf

/-- A BO changes place, and its `bo_va` is marked as moved. -/
theorem Synced.move (h : Synced queued s) {b : ℕ} (bo : Bo) {bv : BoVa}
    (hbv : s.boVas (some b) = some bv) (hper : bo.perVm = (s.bos b).perVm)
    (hq : s.perVm (some b) = true → queued (some b)) :
    Synced queued { s.setBoVa (some b) { bv with moved := true } with
      bos := Function.update s.bos b bo } := by
  generalize hs' : ({ s.setBoVa (some b) { bv with moved := true } with
      bos := Function.update s.bos b bo } : State) = s'
  have hbos : s'.bos = Function.update s.bos b bo := by rw [← hs']
  have hva : s'.va = s.va := by rw [← hs']; rfl
  have hboVas : s'.boVas = Function.update s.boVas (some b) (some { bv with moved := true }) := by
    rw [← hs']
    rfl
  have hsettled : ∀ m, m.boVa ≠ some b → Settled s m → Settled s' m :=
    fun m hm hset => hset.other hbos hm (by rw [← hs']; rfl) (by rw [← hs']; rfl)
  have hperm : (bv.valids ++ bv.invalids).Perm (listsOf s.boVas (some b)) := by rw [listsOf, hbv]
  have hperVm := perVm_of_update hbos hper
  have hsame : SameLists s s' := .setBoVa hva hboVas hperm
  constructor
  · exact hsame.tidy h.tidy
  · rw [hva]
    exact h.offsets
  · intro k b' hb' hm hc m hmv
    rw [hboVas] at hb'
    by_cases hk : k = some b
    · subst hk
      rw [Function.update_self] at hb'
      cases hb'
      cases hm
    · rw [Function.update_of_ne hk] at hb'
      apply hsettled m _ (h.valids k b' hb' hm hc m hmv)
      rw [(h.mem_va hb' (List.mem_append_left _ hmv)).2]
      exact hk
  · intro k hk hno m hm hmk
    rw [hperVm] at hk
    by_cases hkb : k = some b
    · subst hkb
      exact absurd (hq hk) hno
    · exact hsettled m (hmk ▸ hkb) (h.settled k hk hno m (hva ▸ hm) hmk)
  · intro k b' hb' hk hm
    rw [hperVm] at hk
    rw [hboVas] at hb'
    by_cases hkb : k = some b
    · subst hkb
      exact hq hk
    · rw [Function.update_of_ne hkb] at hb'
      exact h.flagged k b' hb' hk hm
  · intro k b' hb' hk
    rw [hperVm] at hk
    rw [hboVas] at hb'
    by_cases hkb : k = some b
    · subst hkb
      rw [Function.update_self] at hb'
      cases hb'
      exact h.kept (some b) bv hbv hk
    · rw [Function.update_of_ne hkb] at hb'
      exact h.kept k b' hb' hk

/-- A BO changes that has no `bo_va`, or that stays where it is. -/
theorem Synced.setBo (h : Synced queued s) {b : ℕ} (bo : Bo)
    (hb : s.boVas (some b) = none ∨ bo.mem = (s.bos b).mem)
    (hper : bo.perVm = (s.bos b).perVm) :
    Synced queued { s with bos := Function.update s.bos b bo } := by
  have hperVm : ∀ k, ({ s with bos := Function.update s.bos b bo } : State).perVm k = s.perVm k :=
    perVm_of_update rfl hper
  have hsettled : ∀ m ∈ s.va, Settled s m →
      Settled { s with bos := Function.update s.bos b bo } m := by
    intro m hm hset
    by_cases hk : m.boVa = some b
    · rcases hb with hb | hmem
      · obtain ⟨bv, hbv, -⟩ := h.tidy.listed.live hm
        rw [hk, hb] at hbv
        cases hbv
      · intro p hp
        have hcur := hset p hp
        rw [hk] at hcur ⊢
        simpa [State.boOf, Current, hmem] using hcur
    · exact hset.other rfl hk rfl rfl
  constructor
  · have hsame : SameLists s { s with bos := Function.update s.bos b bo } := .of_eq rfl rfl
    exact hsame.tidy h.tidy
  · exact h.offsets
  · intro k b' hb' hm hc m hmv
    exact hsettled m (h.mem_va hb' (List.mem_append_left _ hmv)).1 (h.valids k b' hb' hm hc m hmv)
  · intro k hk hno m hm hmk
    exact hsettled m hm (h.settled k (hperVm k ▸ hk) hno m hm hmk)
  · exact fun k b' hb' hk => h.flagged k b' hb' (hperVm k ▸ hk)
  · exact fun k b' hb' hk => h.kept k b' hb' (hperVm k ▸ hk)

end Operations

end Gsgpu.Vm
