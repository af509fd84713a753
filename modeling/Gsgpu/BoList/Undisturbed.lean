import Gsgpu.BoList.Lists

/-! Submissions that do not disturb each other: where the list is sorted for one at a time, each
finds its own lists as it made them, and in the entries what it stored. -/
namespace Gsgpu.Sharing
open Intrusive

/-- The entries have what the submissions stored; two of them are under way only if there is
nothing to link, and one has the BOs reserved. -/
structure Stored (l : BoList) (s : State) : Prop where
  userPages : ∀ q, (s.cs q).phase ≠ .idle → ∀ e < l.numEntries,
    s.userPages e = (s.cs q).userPages e
  noPages : ∀ q, (s.cs q).phase ≠ .idle → ∀ e < l.numEntries, l.hasParent e = true →
    (s.cs q).userPages e = none
  boVa : ∀ q, (s.cs q).phase = .validated ∨ (s.cs q).phase = .updated → ∀ e < l.numEntries,
    s.boVa e = (s.cs q).boVa e
  pd : ∀ q, (s.cs q).phase ≠ .idle → (s.cs q).phase ≠ .listed → s.pd = some q
  alone : ∀ q r, q ≠ r → (s.cs q).phase ≠ .idle → (s.cs r).phase ≠ .idle →
    ∀ e < l.numEntries, l.hasParent e = true

variable {l : BoList} {K : Kinds} {s s' : State} {c : Cs} {p e : ℕ} {k g : Kind} {x : Addr}

@[simp] theorem setCs_cs (s : State) (p : ℕ) (c : Cs) : (s.setCs p c).cs p = c :=
  Function.update_self ..

@[simp] theorem setCs_cs_ne (s : State) {p q : ℕ} (c : Cs) (h : q ≠ p) :
    (s.setCs p c).cs q = s.cs q := Function.update_of_ne h ..

/-- What holds of the submission that changes and of all others holds of all. -/
theorem forall_setCs {P : ℕ → Cs → Prop} {c : Cs} (hp : P p c)
    (h : ∀ q, q ≠ p → P q (s.cs q)) (q : ℕ) : P q ((s.setCs p c).cs q) := by
  by_cases hq : q = p
  · subst hq
    rwa [setCs_cs]
  · rw [setCs_cs_ne s c hq]
    exact h q hq

/-- A change to one submission that keeps its phase and what it stored. -/
theorem Stored.congr (h : Stored l s) (hphase : ∀ q, (s'.cs q).phase = (s.cs q).phase)
    (hcs : ∀ q, (s'.cs q).userPages = (s.cs q).userPages ∧ (s'.cs q).boVa = (s.cs q).boVa)
    (hpages : s'.userPages = s.userPages) (hva : s'.boVa = s.boVa) (hpd : s'.pd = s.pd) :
    Stored l s' := by
  refine ⟨fun q hq => ?_, fun q hq => ?_, fun q hq => ?_, fun q hq => ?_, fun q r hqr hq hr => ?_⟩
  · rw [hphase] at hq
    rw [hpages, (hcs q).1]
    exact h.userPages q hq
  · rw [hphase] at hq
    rw [(hcs q).1]
    exact h.noPages q hq
  · rw [hphase] at hq
    rw [hva, (hcs q).2]
    exact h.boVa q hq
  · rw [hphase] at hq ⊢
    rw [hpd]
    exact h.pd q hq
  · rw [hphase] at hq hr
    exact h.alone q r hqr hq hr

/-- Where the `bo_va` are stored, the BOs are reserved. -/
theorem Stored.held (h : Stored l s) {q : ℕ}
    (hq : (s.cs q).phase = .validated ∨ (s.cs q).phase = .updated) : s.pd = some q := by
  rcases hq with hq | hq <;> exact h.pd q (by simp [hq]) (by simp [hq])

/-- The state between two steps, or within an iteration. -/
structure State.Inv (l : BoList) (K : Kinds) (s : State) : Prop where
  listed : Listed l K s.links s.cs
  stored : Stored l s

theorem move_phase (s : State) (p : ℕ) (x : Addr) (k : Kind) :
    ∀ q, ((s.move p x k).cs q).phase = (s.cs q).phase :=
  forall_setCs (P := fun q c => c.phase = (s.cs q).phase) rfl fun _ _ => rfl

theorem setPages_phase (s : State) (p e : ℕ) (pages : Option ℕ) :
    ∀ q, ((s.setPages p e pages).cs q).phase = (s.cs q).phase :=
  forall_setCs (P := fun q c => c.phase = (s.cs q).phase) rfl fun _ _ => rfl

theorem State.Inv.move (h : s.Inv l K) (hp : (s.cs p).phase ≠ .idle) (hk : K p k) (hg : K p g)
    (hx : x ∈ (s.cs p).lists g) : (s.move p x k).Inv l K := by
  refine ⟨h.listed.move hp hk hg hx rfl fun _ => rfl,
    h.stored.congr (move_phase s p x k) ?_ rfl rfl rfl⟩
  · exact forall_setCs (P := fun q c => c.userPages = (s.cs q).userPages ∧
      c.boVa = (s.cs q).boVa) ⟨rfl, rfl⟩ fun _ _ => ⟨rfl, rfl⟩

/-- The pages of an entry that is linked are stored while no other submission is under way. -/
theorem State.Inv.setPages (h : s.Inv l K) (hp : (s.cs p).phase ≠ .idle) (he : e < l.numEntries)
    (hpar : l.hasParent e = false) (pages : Option ℕ) : (s.setPages p e pages).Inv l K := by
  have hphase := setPages_phase s p e pages
  have hother : ∀ q, q ≠ p → (s.cs q).phase = .idle := by
    intro q hq
    by_contra hidle
    have htrue := h.stored.alone q p hq hidle hp e he
    rw [hpar] at htrue
    cases htrue
  have hlists : ∀ q, ((s.setPages p e pages).cs q).lists = (s.cs q).lists :=
    forall_setCs (P := fun q c => c.lists = (s.cs q).lists) rfl fun _ _ => rfl
  refine ⟨h.listed.congr fun q hq => ⟨by rwa [hphase q] at hq, hlists q⟩,
    ⟨?_, ?_, ?_, ?_, ?_⟩⟩
  · refine forall_setCs (P := fun q c => c.phase ≠ .idle → ∀ e' < l.numEntries,
      Function.update s.userPages e pages e' = c.userPages e') (fun _ e' he' => ?_)
      fun q hq hidle => absurd (hother q hq) hidle
    simp only [Function.update_apply, h.stored.userPages p hp e' he']
  · refine forall_setCs (P := fun q c => c.phase ≠ .idle → ∀ e' < l.numEntries,
      l.hasParent e' = true → c.userPages e' = none) (fun _ e' he' hpar' => ?_)
      fun q _ => h.stored.noPages q
    have hne : e' ≠ e := by
      rintro rfl
      rw [hpar] at hpar'
      cases hpar'
    simpa [hne] using h.stored.noPages p hp e' he' hpar'
  · exact forall_setCs (P := fun q c => c.phase = .validated ∨ c.phase = .updated →
      ∀ e' < l.numEntries, s.boVa e' = c.boVa e') (h.stored.boVa p) fun q _ => h.stored.boVa q
  · exact forall_setCs (P := fun q c => c.phase ≠ .idle → c.phase ≠ .listed → s.pd = some q)
      (h.stored.pd p) fun q _ => h.stored.pd q
  · intro q r hqr hq hr
    rw [hphase] at hq hr
    exact h.stored.alone q r hqr hq hr

theorem mem_userptrs (he : e ∈ l.userptrs) : e < l.numEntries ∧ l.hasParent e = false := by
  rw [BoList.userptrs, List.mem_range'_1] at he
  exact ⟨by omega, l.userptr e he.1⟩

/-- The invariant of a submission under way, whose phase does not change within an iteration. -/
structure Running (l : BoList) (K : Kinds) (p : ℕ) (phase : Phase) (d : Option ℕ) (s : State) :
    Prop where
  inv : s.Inv l K
  phase : (s.cs p).phase = phase
  pd : s.pd = d

variable {phase : Phase} {o : Iteration} {d : Option ℕ}

theorem Running.ttmMove (h : Running l between p phase d s) (hp : phase ≠ .idle) {m : Addr × Kind}
    (hs : s.ttmMove l p m = some s') : Running l between p phase d s' := by
  have hidle : (s.cs p).phase ≠ .idle := h.phase ▸ hp
  obtain ⟨xs, hxs, hs⟩ := Option.bind_eq_some_iff.mp hs
  rw [h.inv.listed.walk hidle (.inl rfl)] at hxs
  cases hxs
  split at hs
  case isFalse => cases hs
  case isTrue hm =>
    cases hs
    exact ⟨h.inv.move hidle hm.2 (.inl rfl) hm.1, by rw [move_phase, h.phase], h.pd⟩

theorem Running.ttmMoves (h : Running l between p phase d s) (hp : phase ≠ .idle)
    {ms : List (Addr × Kind)} (hs : ms.foldlM (State.ttmMove l p) s = some s') :
    Running l between p phase d s' := by
  induction ms generalizing s with
  | nil =>
    cases hs
    exact h
  | cons m ms ih =>
    rw [List.foldlM_cons] at hs
    obtain ⟨t, ht, hs⟩ := Option.bind_eq_some_iff.mp hs
    exact ih (h.ttmMove hp ht) hs

theorem Running.initNeedPages (h : Running l between p phase d s) (hp : phase ≠ .idle) :
    Running l (within p) p phase d { s with links := s.links.init (.head p .needPages) } := by
  have hidle : (s.cs p).phase ≠ .idle := h.phase ▸ hp
  exact ⟨⟨h.inv.listed.initNeedPages hidle,
    h.inv.stored.congr (fun _ => rfl) (fun _ => ⟨rfl, rfl⟩) rfl rfl rfl⟩, h.phase, h.pd⟩

theorem Running.visitUserptr (h : Running l (within p) p phase d s) (hp : phase ≠ .idle)
    (he : e ∈ l.userptrs) : Running l (within p) p phase d (s.visitUserptr p o e) := by
  have hidle : (s.cs p).phase ≠ .idle := h.phase ▸ hp
  obtain ⟨hlt, hpar⟩ := mem_userptrs he
  have hmove : ∀ t, Running l (within p) p phase d t →
      Running l (within p) p phase d (t.move p (.entry e) .needPages) := by
    intro t ht
    have hidle : (t.cs p).phase ≠ .idle := ht.phase ▸ hp
    obtain ⟨g, hg, hin⟩ := ht.inv.listed.linked p hidle e hlt hpar
    exact ⟨ht.inv.move hidle (.inr ⟨rfl, rfl⟩) hg hin, by rw [move_phase, ht.phase],
      ht.pd⟩
  have hpages : Running l (within p) p phase d (s.setPages p e none) :=
    ⟨h.inv.setPages hidle hlt hpar none, by rw [setPages_phase, h.phase], h.pd⟩
  simp only [State.visitUserptr]
  split_ifs
  · exact hmove _ hpages
  · exact hpages
  · exact hmove _ h
  · exact h

theorem Running.visitUserptrs (h : Running l (within p) p phase d s) (hp : phase ≠ .idle)
    {es : List ℕ} (hes : ∀ e ∈ es, e ∈ l.userptrs) :
    Running l (within p) p phase d (es.foldl (State.visitUserptr p o) s) := by
  induction es generalizing s with
  | nil => exact h
  | cons e es ih =>
    exact ih (h.visitUserptr hp (hes e (by simp))) fun e' he' => hes e' (by simp [he'])

theorem Running.fill (h : Running l K p phase d s) (hp : phase ≠ .idle) {xs : List Addr}
    (hxs : ∀ x ∈ xs, Own l p x) : Running l K p phase d (xs.foldl (State.fill p o) s) := by
  induction xs generalizing s with
  | nil => exact h
  | cons x xs ih =>
    refine ih ?_ fun y hy => hxs y (by simp [hy])
    rcases hxs x (by simp) with rfl | rfl | ⟨e, he, rfl, hpar⟩
    · exact h
    · exact h
    · exact ⟨h.inv.setPages (h.phase ▸ hp) he hpar _, by rw [State.fill, setPages_phase, h.phase],
        h.pd⟩

/-- A submission goes on or ends, with the reservation and the `bo_va` of the entries. -/
theorem State.Inv.setCs (h : s.Inv l between) {va : ℕ → Option ℕ}
    (hidle : c.phase ≠ .idle → (s.cs p).phase ≠ .idle ∧ c.lists = (s.cs p).lists ∧
      c.userPages = (s.cs p).userPages)
    (hpd : c.phase ≠ .idle → c.phase ≠ .listed → d = some p)
    (hpd' : ∀ q, q ≠ p → s.pd = some q → d = some q)
    (hva : c.phase = .validated ∨ c.phase = .updated → ∀ e < l.numEntries, va e = c.boVa e)
    (hva' : ∀ q, q ≠ p → s.pd = some q → va = s.boVa) :
    State.Inv l between ({ s with pd := d, boVa := va }.setCs p c) := by
  have hgo : ∀ q, (Function.update s.cs p c q).phase ≠ .idle → (s.cs q).phase ≠ .idle ∧
      (Function.update s.cs p c q).lists = (s.cs q).lists := by
    intro q hq
    by_cases hqp : q = p
    · subst hqp
      rw [Function.update_self] at hq ⊢
      exact ⟨(hidle hq).1, (hidle hq).2.1⟩
    · rw [Function.update_of_ne hqp] at hq ⊢
      exact ⟨hq, rfl⟩
  refine ⟨h.listed.congr hgo, ⟨?_, ?_, ?_, ?_, fun q r hqr hq hr => ?_⟩⟩
  · refine forall_setCs (P := fun q c => c.phase ≠ .idle → ∀ e < l.numEntries,
      s.userPages e = c.userPages e) (fun hc => ?_) fun q _ => h.stored.userPages q
    rw [(hidle hc).2.2]
    exact h.stored.userPages p (hidle hc).1
  · refine forall_setCs (P := fun q c => c.phase ≠ .idle → ∀ e < l.numEntries,
      l.hasParent e = true → c.userPages e = none) (fun hc => ?_) fun q _ => h.stored.noPages q
    rw [(hidle hc).2.2]
    exact h.stored.noPages p (hidle hc).1
  · refine forall_setCs (P := fun q c => c.phase = .validated ∨ c.phase = .updated →
      ∀ e < l.numEntries, va e = c.boVa e) hva fun q hq hc => ?_
    rw [hva' q hq (h.stored.held hc)]
    exact h.stored.boVa q hc
  · exact forall_setCs (P := fun q c => c.phase ≠ .idle → c.phase ≠ .listed → d = some q) hpd
      fun q hq hq₁ hq₂ => hpd' q hq (h.stored.pd q hq₁ hq₂)
  · exact h.stored.alone q r hqr (hgo q hq).1 (hgo r hr).1

/-- The loop of the userptrs has left none without pages. -/
theorem Running.reserve (h : Running l (within p) p phase none s) (hp : phase ≠ .idle)
    (hempty : s.links.empty (.head p .needPages)) :
    State.Inv l between
      ({ s with pd := some p }.setCs p { s.cs p with phase := .reserved }) := by
  have hidle : (s.cs p).phase ≠ .idle := h.phase ▸ hp
  have hlist : Listed l between s.links s.cs := h.inv.listed.noNeedPages hidle hempty
  refine State.Inv.setCs ⟨hlist, h.inv.stored⟩ (fun _ => ⟨hidle, rfl, rfl⟩) (fun _ _ => rfl) ?_
    (by simp) fun _ _ _ => rfl
  simp [h.pd]

theorem Running.splice (h : Running l (within p) p phase d s) (hp : phase ≠ .idle)
    (hphase : c.phase = (s.cs p).phase) (hpages : c.userPages = (s.cs p).userPages)
    (hva : c.boVa = (s.cs p).boVa)
    (hlists : ∀ k, c.lists k = match k with
      | .validated => (s.cs p).lists .needPages ++ (s.cs p).lists .validated
      | .needPages => []
      | k => (s.cs p).lists k) :
    State.Inv l between ({ s with
      links := s.links.splice (.head p .needPages) (.head p .validated) }.setCs p c) := by
  refine ⟨h.inv.listed.splice (h.phase ▸ hp) hphase hlists, h.inv.stored.congr ?_ ?_ rfl rfl rfl⟩
  · exact forall_setCs (P := fun q c => c.phase = (s.cs q).phase) hphase fun _ _ => rfl
  · exact forall_setCs (P := fun q c => c.userPages = (s.cs q).userPages ∧
      c.boVa = (s.cs q).boVa) ⟨hpages, hva⟩ fun _ _ => ⟨rfl, rfl⟩

theorem State.Inv.iterate (h : s.Inv l between) (hs : s.iterate l p o = some s') :
    s'.Inv l between := by
  simp only [State.iterate] at hs
  split at hs
  case isFalse => cases hs
  case isTrue hcond =>
    obtain ⟨t, ht, hs⟩ := Option.bind_eq_some_iff.mp hs
    have hp : Phase.listed ≠ .idle := by decide
    have hmoved := Running.ttmMoves ⟨h, hcond.1, hcond.2⟩ hp ht
    have hvisited := (hmoved.initNeedPages hp).visitUserptrs (o := o) hp
      (fun e (he : e ∈ l.userptrs) => he)
    split at hs
    case isTrue hempty =>
      cases hs
      exact hvisited.reserve hp hempty
    case isFalse =>
      split at hs
      case isTrue => cases hs
      case isFalse =>
        have hidle := hvisited.phase ▸ hp
        have hneed : within p p .needPages := .inr ⟨rfl, rfl⟩
        rw [hvisited.inv.listed.walk hidle hneed] at hs
        cases hs
        refine Running.splice (hvisited.fill hp fun x hx => ?_) hp rfl rfl rfl fun k => ?_
        · exact hvisited.inv.listed.own p hidle _ hneed x hx
        · cases k <;> rfl

theorem State.Inv.getList (h : s.Inv l between) {uf : Bool} (hkept : (Event.getList p uf).Kept l s)
    (hs : s.getList l p uf = some s') : s'.Inv l between := by
  simp only [State.getList] at hs
  split at hs
  case isFalse => cases hs
  case isTrue hp =>
    cases hs
    -- with another submission under way, there is nothing to link
    have hparent : ∀ q, q ≠ p → (s.cs q).phase ≠ .idle → ∀ e < l.numEntries,
        l.hasParent e = true := by
      intro q hqp hq
      exact hkept.resolve_left fun hidle => hq (hidle q hqp)
    have hentries : ∀ e < l.numEntries, l.hasParent e = false → ∀ a ∈ heads s.cs between,
        .entry e ∉ a :: listsOf s.cs a := by
      rintro e he hpar a ⟨q, k, rfl, hq, -⟩
      have hqp : q ≠ p := by
        rintro rfl
        exact hq hp
      have htrue := hparent q hqp hq e he
      rw [hpar] at htrue
      cases htrue
    refine ⟨h.listed.getList hp hentries fun k => ?_, ⟨?_, ?_, ?_, ?_, fun q r hqr hq hr => ?_⟩⟩
    · cases k <;> rfl
    · refine forall_setCs (P := fun q c => c.phase ≠ .idle → ∀ e < l.numEntries,
        (if e < l.numEntries then none else s.userPages e) = c.userPages e)
        (fun _ e he => if_pos he) fun q hqp hq e he => ?_
      rw [if_pos he]
      exact (h.stored.noPages q hq e he (hparent q hqp hq e he)).symm
    · exact forall_setCs (P := fun q c => c.phase ≠ .idle → ∀ e < l.numEntries,
        l.hasParent e = true → c.userPages e = none) (fun _ _ _ _ => rfl)
        fun q _ => h.stored.noPages q
    · exact forall_setCs (P := fun q c => c.phase = .validated ∨ c.phase = .updated →
        ∀ e < l.numEntries, s.boVa e = c.boVa e) (by simp) fun q _ => h.stored.boVa q
    · exact forall_setCs (P := fun q c => c.phase ≠ .idle → c.phase ≠ .listed → s.pd = some q)
        (by simp) fun q _ => h.stored.pd q
    · by_cases hqp : q = p
      · subst hqp
        rw [setCs_cs_ne _ _ (Ne.symm hqr)] at hr
        exact hparent r (Ne.symm hqr) hr
      · rw [setCs_cs_ne _ _ hqp] at hq
        exact hparent q hqp hq

/-- The pages of userptrs that are bound are used up. -/
theorem Running.usePages (h : Running l K p phase d s) (hp : phase ≠ .idle) (b : ℕ → Bool)
    {es : List ℕ} (hes : ∀ e ∈ es, e ∈ l.userptrs) :
    Running l K p phase d (es.foldl (fun s e =>
      if b e ∧ s.userPages e ≠ none then s.setPages p e none else s) s) := by
  induction es generalizing s with
  | nil => exact h
  | cons e es ih =>
    obtain ⟨he, hpar⟩ := mem_userptrs (hes e (by simp))
    refine ih ?_ fun e' he' => hes e' (by simp [he'])
    beta_reduce
    split_ifs
    · exact ⟨h.inv.setPages (h.phase ▸ hp) he hpar _, by rw [setPages_phase, h.phase], h.pd⟩
    · exact h

theorem State.Inv.validate (h : s.Inv l between) {bound : ℕ → Bool} {va : ℕ → Option ℕ}
    (hs : s.validate l p bound va = some s') : s'.Inv l between := by
  simp only [State.validate] at hs
  split at hs
  case isFalse => cases hs
  case isTrue hp =>
    have hpd : s.pd = some p := h.stored.pd p (by simp [hp]) (by simp [hp])
    have hused := Running.usePages ⟨h, hp, hpd⟩ (by decide) bound
      fun e (he : e ∈ l.userptrs) => he
    have hother : ∀ q, q ≠ p → s.pd ≠ some q := by
      intro q hqp heq
      rw [hpd] at heq
      exact hqp (Option.some.inj heq).symm
    cases hs
    refine State.Inv.setCs (d := State.pd _) hused.inv (fun _ => ⟨?_, rfl, rfl⟩)
      (fun _ _ => hused.pd) (fun q _ heq => heq) (fun _ e he => if_pos he) fun q hqp heq => ?_
    · rw [hused.phase]
      decide
    · rw [hused.pd, ← hpd] at heq
      exact absurd heq (hother q hqp)

theorem State.Inv.updatePte (h : s.Inv l between) (hs : s.updatePte p = some s') :
    s'.Inv l between := by
  simp only [State.updatePte] at hs
  split at hs
  case isFalse => cases hs
  case isTrue hp =>
    cases hs
    have hidle : (s.cs p).phase ≠ .idle := by simp [hp]
    refine h.setCs (fun _ => ⟨hidle, rfl, rfl⟩) (fun _ _ => ?_) (fun q _ heq => heq)
      (fun _ => h.stored.boVa p (.inl hp)) fun _ _ _ => rfl
    exact h.stored.held (.inl hp)

/-- A submission ends, and gives its reservation back. -/
theorem State.Inv.finish (h : s.Inv l between) (hc : c.phase = .idle)
    (hd : ∀ q, q ≠ p → s.pd = some q → d = some q) :
    State.Inv l between ({ s with pd := d }.setCs p c) :=
  h.setCs (fun hne => absurd hc hne) (fun hne => absurd hc hne) hd (by simp [hc]) fun _ _ _ => rfl

theorem State.Inv.submit (h : s.Inv l between) (hs : s.submit p = some s') :
    s'.Inv l between := by
  simp only [State.submit] at hs
  split at hs
  case isFalse => cases hs
  case isTrue hp =>
    cases hs
    refine h.finish rfl fun q hqp heq => ?_
    rw [h.stored.held (.inr hp)] at heq
    exact absurd (Option.some.inj heq).symm hqp

theorem State.Inv.abort (h : s.Inv l between) (hs : s.abort p = some s') :
    s'.Inv l between := by
  simp only [State.abort] at hs
  split at hs
  case isFalse => cases hs
  case isTrue =>
    cases hs
    refine h.finish rfl fun q hqp heq => ?_
    have hne : s.pd ≠ some p := by
      rw [heq]
      exact fun heq => hqp (Option.some.inj heq)
    rw [if_neg hne, heq]

theorem State.Inv.step (h : s.Inv l between) {a : Event} (hkept : a.Kept l s)
    (hs : s.step l a = some s') : s'.Inv l between := by
  cases a with
  | getList p uf => exact h.getList hkept hs
  | iterate p o => exact h.iterate hs
  | validate p bound va => exact h.validate hs
  | updatePte p => exact h.updatePte hs
  | submit p => exact h.submit hs
  | abort p => exact h.abort hs

/-- With no submission under way there is nothing to disturb. -/
theorem inv_of_idle (h : ∀ p, (s.cs p).phase = .idle) : s.Inv l between := by
  have hno : ∀ {q}, (s.cs q).phase ≠ .idle → False := fun {q} hq => hq (h q)
  refine ⟨⟨⟨?_, ?_⟩, fun q hq => (hno hq).elim, fun q hq => (hno hq).elim,
    fun q hq => (hno hq).elim⟩, ⟨fun q hq => (hno hq).elim, fun q hq => (hno hq).elim,
    fun q hq => ?_, fun q hq => (hno hq).elim, fun q _ _ hq => (hno hq).elim⟩⟩
  · rintro a ⟨q, k, -, hq, -⟩
    exact (hno hq).elim
  · rintro a ⟨q, k, -, hq, -⟩
    exact (hno hq).elim
  · simp [h q] at hq

theorem State.Inv.undisturbed (h : s.Inv l between) : s.Undisturbed l where
  validated _ hp := h.listed.walk hp (.inl rfl)
  userPages := h.stored.userPages
  boVa := h.stored.boVa

/-- Where the list is sorted for one submission at a time, or has nothing to be linked, every
submission has its list as it made it until the buffers are fenced, and reads from the entries what
it stored. -/
theorem lists_undisturbed (h : s.Reachable l (fun s a => a.Kept l s)) : s.Undisturbed l := by
  apply State.Inv.undisturbed
  apply h.invariant
  · intro s hs
    exact inv_of_idle hs.2
  · intro s a s' hinv hkept hs
    exact hinv.step hkept hs

/-- One BO, with a reservation of its own. -/
def oneEntry : BoList where
  numEntries := 1
  firstUserptr := 1
  priority _ := 0
  hasParent _ := false
  priority_lt _ := by decide
  userptr _ _ := rfl

/-- One BO that shares the reservation of the VM. -/
def oneChild : BoList where
  numEntries := 1
  firstUserptr := 1
  priority _ := 0
  hasParent e := e = 0
  priority_lt _ := by decide
  userptr e he := by simp; omega

def start : State where
  links := ⟨id, id⟩
  userPages _ := none
  boVa _ := none
  pd := none
  cs _ := ⟨.idle, 0, fun _ => [], fun _ => none, fun _ => none⟩

theorem start_reachable (good : State → Event → Prop) : start.Reachable l good :=
  .start ⟨rfl, fun _ => rfl⟩

/-- Two submissions that both have the BO, the first with its `bo_va` stored. -/
theorem child_undisturbed : ∃ s : State, (s.cs 0).phase = .validated ∧ (s.cs 1).phase = .listed ∧
    s.Undisturbed oneChild := by
  let es : List Event := [.getList 0 true, .getList 1 false,
    .iterate 0 ⟨[(.vmPd 0, .validated)], fun _ => false, fun _ => false, fun _ => 0⟩,
    .validate 0 (fun _ => false) fun _ => some 5]
  have hrun : (es.foldlM (State.step oneChild) start).map
      (fun s => ((s.cs 0).phase, (s.cs 1).phase)) = some (.validated, .listed) := by
    decide +kernel
  obtain ⟨s, hs, hphase⟩ := Option.map_eq_some_iff.mp hrun
  have hkept : ∀ s, ∀ a ∈ es, a.Kept oneChild s := by
    intro s a ha
    have hparent : ∀ e < oneChild.numEntries, oneChild.hasParent e = true := by decide
    cases a with
    | getList => exact .inr hparent
    | _ => trivial
  have hreach : s.Reachable oneChild (fun s a => a.Kept oneChild s) :=
    (start_reachable _).foldlM hkept hs
  exact ⟨s, (Prod.mk.inj hphase).1, (Prod.mk.inj hphase).2, lists_undisturbed hreach⟩

/-- A second submission sorts the list before the buffers of the first are fenced, which then finds
no end of its own list. -/
theorem second_getList_disturbs :
    ¬ ∀ (l : BoList) (s : State), s.Reachable l (fun _ _ => True) → s.Undisturbed l := by
  intro hall
  let es : List Event := [.getList 0 false, .getList 1 false]
  have hrun : (es.foldlM (State.step oneEntry) start).map
      (fun s => ((s.cs 0).phase, s.walk oneEntry 0 .validated)) = some (.listed, none) := by
    decide +kernel
  obtain ⟨s, hs, hwalk⟩ := Option.map_eq_some_iff.mp hrun
  have hreach : s.Reachable oneEntry (fun _ _ => True) :=
    (start_reachable _).foldlM (fun _ _ _ => trivial) hs
  have hphase : (s.cs 0).phase ≠ .idle := by simp [(Prod.mk.inj hwalk).1]
  have hlist := (hall oneEntry s hreach).validated 0 hphase
  rw [(Prod.mk.inj hwalk).2] at hlist
  cases hlist

end Gsgpu.Sharing
