import Gsgpu.Fences.Invariant

/-! When fences signal, and the runs in which they do not do so as one might expect. -/
namespace Gsgpu.FenceDriver

/-- In every run of a fence driver in which `last_seq` does not go around under a compare-and-swap,
a fence has signaled only if the hardware has written its number or a later one, no fence is
signaled twice, every number seen by a run is signaled when that run and those that started before
it passed its compare-and-swap are done, and a new fence is stored in an empty slot. -/
theorem fences_signal (num : UInt32) (hnum : num * 2 ≠ 0) {s : State}
    (h : s.Reachable num fun s e => e.NotAround s) :
    (∀ k, s.signaled k = true → k ≤ s.written) ∧
    s.bug = false ∧
    (∀ i, (s.runs i).pc = .done → (∀ j < (s.runs i).horizon, (s.runs j).pc = .done) →
      ∀ k, 0 < k → k ≤ (s.runs i).seen → s.signaled k = true) ∧
    ∀ seq fence, s.emit = .assign seq fence → s.fences (s.slot seq) = none := by
  have hinv := h.inv hnum
  refine ⟨?_, hinv.bug, ?_, ?_⟩
  · intro k hk
    exact (hinv.signaled k hk).trans hinv.claimed_le
  · intro i hdone hbefore k hpos hk
    exact hinv.signaled_of_done hdone hbefore hpos hk
  · intro seq fence hemit
    exact (hinv.assign hemit).1

section Runs

/-- Some steps, before the first wrap. -/
def State.exec (s : State) : List Event → Option State
  | [] => some s
  | e :: es => if s.claimed < 2 ^ 32 then (s.step e).bind (·.exec es) else none

theorem State.Reachable.exec {num : UInt32} (hnum : num * 2 ≠ 0) {s s' : State} {es : List Event}
    (h : s.Reachable num fun s e => e.NotAround s) (hexec : s.exec es = some s') :
    s'.Reachable num fun s e => e.NotAround s := by
  induction es generalizing s with
  | nil => exact Option.some.inj hexec ▸ h
  | cons e es ih =>
    rw [State.exec] at hexec
    split at hexec
    · next hlt =>
      obtain ⟨s₁, hstep, hrest⟩ := Option.bind_eq_some_iff.mp hexec
      exact ih (.next h ((h.inv hnum).notAround hlt e) hstep) hrest
    · cases hexec

/-- A ring with four slots. -/
def fresh : State where
  syncSeq := 0
  lastSeq := 0
  hw := 0
  numFencesMask := 3
  numFences := 4
  fences := fun _ => none
  signaled := fun _ => false
  bug := false
  emit := .idle
  runs := fun _ => ⟨.start, 0, 0, 0, 0⟩
  started := 0
  emitted := 0
  committed := 0
  written := 0
  claimed := 0
  owner := fun _ => 0

private theorem fresh_reachable : fresh.Reachable 2 fun s e => e.NotAround s := .start rfl

/-- A fence is emitted, the hardware writes its number, and a run signals it. -/
def once : List Event :=
  [.emitBegin true, .emitStep, .emitStep, .commit, .hwWrite 1, .processBegin, .processStep 0,
    .processStep 0, .processStep 0, .processStep 0, .processStep 0, .processStep 0]

theorem fences_signal_once : ∃ s : State, s.Reachable 2 (fun s e => e.NotAround s) ∧
    (s.runs 0).pc = .done ∧ s.signaled 1 = true := by
  obtain ⟨s, hs, hdone, hseen, hhorizon⟩ : ∃ s, fresh.exec once = some s ∧
      (s.runs 0).pc = .done ∧ (s.runs 0).seen = 1 ∧ (s.runs 0).horizon = 1 :=
    ⟨_, rfl, rfl, rfl, rfl⟩
  have hreach := fresh_reachable.exec (by decide) hs
  refine ⟨s, hreach, hdone, (fences_signal 2 (by decide) hreach).2.2.1 0 hdone ?_ 1 Nat.one_pos
    hseen.ge⟩
  intro j hj
  obtain rfl : j = 0 := by omega
  exact hdone

/-- The first run is still before its compare-and-swap when the second claims the only fence. -/
def overtaken : List Event :=
  [.emitBegin true, .emitStep, .emitStep, .commit, .hwWrite 1, .processBegin, .processStep 0,
    .processBegin, .processStep 1, .processStep 1, .processStep 1, .processStep 0, .processStep 0,
    .processStep 0, .processStep 0, .processStep 0]

private theorem overtaken_runs : ∃ s : State, s.Reachable 2 (fun _ _ => True) ∧
    (s.runs 0).pc = .done ∧ (s.runs 0).seen = 1 ∧ s.signaled 1 = false := by
  obtain ⟨s, hs, hrest⟩ : ∃ s, fresh.exec overtaken = some s ∧ (s.runs 0).pc = .done ∧
      (s.runs 0).seen = 1 ∧ s.signaled 1 = false := ⟨_, rfl, rfl, rfl, rfl⟩
  exact ⟨s, (fresh_reachable.exec (by decide) hs).mono fun _ _ _ => trivial, hrest⟩

/-- What is kept while one fence after the other is emitted and signaled: the first run stands
before a compare-and-swap for which it read zero and one. -/
structure Stalled (s : State) : Prop where
  reach : s.Reachable 2 fun _ _ => True
  inv : s.Inv
  emit : s.emit = .idle
  size : s.numFences = 4
  started : 0 < s.started
  first : s.runs 0 = ⟨.xchg 0 1, 0, 1, 0, 0⟩

theorem Stalled.next {s s' : State} {e : Event} (h : Stalled s) (hgood : e.NotAround s)
    (hstep : s.step e = some s') (hemit : s'.emit = .idle) (hsize : s'.numFences = s.numFences)
    (hstarted : s.started ≤ s'.started) (hfirst : s'.runs 0 = s.runs 0) : Stalled s' :=
  ⟨.next h.reach trivial hstep, h.inv.step hgood hstep, hemit, hsize.trans h.size,
    h.started.trans_le hstarted, hfirst.trans h.first⟩

/-- A step of another run. -/
theorem Stalled.setRun {s : State} (h : Stalled s) {i : ℕ} (hi : i ≠ 0) {r : Run}
    (hgood : Event.NotAround s (.processStep i))
    (hstep : s.step (.processStep i) = some (s.setRun i r)) : Stalled (s.setRun i r) :=
  h.next hgood hstep h.emit rfl le_rfl (Function.update_of_ne hi.symm _ _)

/-- Some steps. -/
def State.steps (s : State) : List Event → Option State
  | [] => some s
  | e :: es => (s.step e).bind (·.steps es)

theorem State.Reachable.steps {num : UInt32} {s s' : State} {es : List Event}
    (h : s.Reachable num fun _ _ => True) (hsteps : s.steps es = some s') :
    s'.Reachable num fun _ _ => True := by
  induction es generalizing s with
  | nil => exact Option.some.inj hsteps ▸ h
  | cons e es ih =>
    obtain ⟨s₁, hstep, hrest⟩ := Option.bind_eq_some_iff.mp hsteps
    exact ih (.next h trivial hstep) hrest

theorem State.Inv.steps {s s' : State} {es : List Event} (h : s.Inv)
    (hgood : ∀ e ∈ es, ∀ i, e ≠ .processStep i) (hsteps : s.steps es = some s') : s'.Inv := by
  induction es generalizing s with
  | nil => exact Option.some.inj hsteps ▸ h
  | cons e es ih =>
    obtain ⟨s₁, hstep, hrest⟩ := Option.bind_eq_some_iff.mp hsteps
    have hg : e.NotAround s := by
      cases e with
      | processStep i => exact (hgood _ List.mem_cons_self i rfl).elim
      | _ => trivial
    exact ih (h.step hg hstep) (fun e' he' => hgood e' (List.mem_cons_of_mem e he')) hrest

/-- One more fence is emitted. -/
theorem Stalled.emitCommit {s : State} (h : Stalled s) (hempty : s.fences = fun _ => none) :
    Stalled { s with
      syncSeq := s.syncSeq + 1
      fences := Function.update s.fences (s.slot (s.syncSeq + 1)) (some (s.emitted + 1))
      emit := .idle
      emitted := s.emitted + 1
      committed := s.emitted + 1 } := by
  have hsteps : s.steps [.emitBegin true, .emitStep, .emitStep, .commit] = some { s with
      syncSeq := s.syncSeq + 1
      fences := Function.update s.fences (s.slot (s.syncSeq + 1)) (some (s.emitted + 1))
      emit := .idle
      emitted := s.emitted + 1
      committed := s.emitted + 1 } := by
    simp [State.steps, State.step, State.emitBegin, State.emitStep, State.commit, h.emit, hempty,
      State.slot]
  exact ⟨h.reach.steps hsteps, h.inv.steps (by simp) hsteps, rfl, h.size, h.started, h.first⟩

/-- The hardware writes the number of the last fence. -/
theorem Stalled.write {s : State} (h : Stalled s) (hcommitted : s.committed = s.emitted)
    (hwritten : s.written < s.emitted) :
    Stalled { s with hw := UInt32.ofNat s.emitted, written := s.emitted } := by
  have hstep : s.step (.hwWrite s.emitted) = some
      { s with hw := UInt32.ofNat s.emitted, written := s.emitted } :=
    if_pos ⟨hwritten, hcommitted.ge⟩
  exact h.next (e := .hwWrite s.emitted) trivial hstep h.emit rfl le_rfl rfl

/-- A run that has claimed the only fence signals it. -/
theorem Stalled.signalOne {s : State} (h : Stalled s) {i : ℕ} (hi : i ≠ 0) (hlt : i < s.started)
    {lastSeq seq : UInt32} (hpc : (s.runs i).pc = .load lastSeq seq)
    (hone : (s.runs i).pos + 1 = (s.runs i).seen)
    (hfences : ∀ j, j ≠ (s.runs i).seen % s.numFences → s.fences j = none) :
    ∃ s', Stalled s' ∧ (s'.fences = fun _ => none) ∧ s'.claimed = s.claimed ∧
      s'.emitted = s.emitted ∧ s'.written = s.written := by
  have hlt' : ¬ s.started ≤ i := not_le.mpr hlt
  -- the slot is loaded
  obtain ⟨r, hr, hpos, hseen, h₁⟩ : ∃ r : Run,
      r.pc = .clear ((lastSeq + 1) &&& s.numFencesMask) seq
        (s.fences ((lastSeq + 1) &&& s.numFencesMask).toNat) ∧
      r.pos = (s.runs i).pos + 1 ∧ r.seen = (s.runs i).seen ∧ Stalled (s.setRun i r) :=
    ⟨{ s.runs i with
        pc := .clear ((lastSeq + 1) &&& s.numFencesMask) seq
          (s.fences ((lastSeq + 1) &&& s.numFencesMask).toNat)
        pos := (s.runs i).pos + 1 }, rfl, rfl, rfl,
      h.setRun hi (fun _ _ hx => by rw [hpc] at hx; cases hx)
        (by simp only [State.step, State.processStep, hpc, hlt', if_false])⟩
  have hself : (s.setRun i r).runs i = r := Function.update_self _ _ _
  have hlocal := h₁.inv.locals i
  simp only [hself, Run.Local, hr] at hlocal
  obtain ⟨hwalk, hpos', hnear, hfence, -⟩ := hlocal
  rw [hfence] at hr
  -- then emptied
  obtain ⟨s₂, hs₂, h₂⟩ : ∃ s₂, s₂ = State.setRun { s.setRun i r with
        fences := Function.update s.fences ((lastSeq + 1) &&& s.numFencesMask).toNat none } i
      { r with pc := .signal ((lastSeq + 1) &&& s.numFencesMask) seq r.pos } ∧ Stalled s₂ := by
    refine ⟨_, rfl, h₁.next (e := .processStep i) ?_ ?_ h.emit rfl le_rfl ?_⟩
    · intro _ _ hx
      rw [hself, hr] at hx
      cases hx
    · simp only [State.step, State.processStep, hself, hr]
      exact if_neg hlt'
    · exact Function.update_of_ne hi.symm _ _
  have hself₂ : s₂.runs i = { r with
      pc := .signal ((lastSeq + 1) &&& s.numFencesMask) seq r.pos } := by
    rw [hs₂]
    exact Function.update_self _ _ _
  -- and the fence is signaled
  have hstep : s₂.step (.processStep i) = some { s₂.setRun i { s₂.runs i with
        pc := .test ((lastSeq + 1) &&& s.numFencesMask) seq } with
      signaled := Function.update s₂.signaled r.pos true
      bug := s₂.bug || s₂.signaled r.pos } := by
    have hlt₂ : ¬ s₂.started ≤ i := by
      rw [hs₂]
      exact hlt'
    simp only [State.step, State.processStep, hself₂, if_neg hlt₂]
  have h₃ := h₂.next (e := .processStep i)
    (fun _ _ hx => by rw [hself₂] at hx; cases hx) hstep h₂.emit rfl le_rfl
    (Function.update_of_ne hi.symm _ _)
  refine ⟨_, h₃, ?_, ?_, ?_, ?_⟩
  · funext j
    show s₂.fences j = none
    rw [hs₂]
    show Function.update s.fences ((lastSeq + 1) &&& s.numFencesMask).toNat none j = none
    by_cases hj : j = ((lastSeq + 1) &&& s.numFencesMask).toNat
    · rw [hj, Function.update_self]
    · rw [Function.update_of_ne hj]
      apply hfences
      rw [hwalk.last, hpos, hone] at hj
      exact hj
  · show s₂.claimed = s.claimed
    rw [hs₂]
    rfl
  · show s₂.emitted = s.emitted
    rw [hs₂]
    rfl
  · show s₂.written = s.written
    rw [hs₂]
    rfl

/-- A new run claims the only fence that the hardware has written since. -/
theorem Stalled.claimOne {s : State} (h : Stalled s) (hone : s.claimed + 1 = s.written) :
    ∃ s' i, Stalled s' ∧ i ≠ 0 ∧ i < s'.started ∧ (∃ lastSeq seq, (s'.runs i).pc = .load lastSeq seq) ∧
      (s'.runs i).pos + 1 = (s'.runs i).seen ∧ (s'.runs i).seen = s.written ∧
      s'.claimed = s.written ∧ s'.numFences = s.numFences ∧ s'.fences = s.fences ∧
      s'.emitted = s.emitted ∧ s'.written = s.written := by
  have hne : s.started ≠ 0 := h.started.ne'
  have h₁ : Stalled s.processBegin :=
    h.next (e := .processBegin) trivial rfl h.emit rfl (Nat.le_succ _)
      (Function.update_of_ne hne.symm _ _)
  have hlt : ¬ s.started + 1 ≤ s.started := Nat.not_succ_le_self _
  have hstart : s.processBegin.runs s.started = ⟨.start, 0, 0, 0, 0⟩ := Function.update_self _ _ _
  -- the two reads
  obtain ⟨r₁, hr₁, h₂⟩ : ∃ r, r = Run.mk (.readHw s.lastSeq) s.claimed 0 0 0 ∧
      Stalled (s.processBegin.setRun s.started r) := by
    refine ⟨_, rfl, h₁.setRun hne (fun _ _ hx => by rw [hstart] at hx; cases hx) ?_⟩
    simp only [State.step, State.processStep, hstart]
    exact if_neg hlt
  have hread : (s.processBegin.setRun s.started r₁).runs s.started =
      ⟨.readHw s.lastSeq, s.claimed, 0, 0, 0⟩ := by
    rw [← hr₁]
    exact Function.update_self _ _ _
  obtain ⟨s₃, hs₃, h₃⟩ : ∃ s₃, s₃ = (s.processBegin.setRun s.started r₁).setRun s.started
      ⟨.xchg s.lastSeq s.hw, s.claimed, s.written, 0, 0⟩ ∧ Stalled s₃ := by
    refine ⟨_, rfl, h₂.setRun hne (fun _ _ hx => by rw [hread] at hx; cases hx) ?_⟩
    simp only [State.step, State.processStep, hread]
    exact if_neg hlt
  have hrun : s₃.runs s.started = ⟨.xchg s.lastSeq s.hw, s.claimed, s.written, 0, 0⟩ := by
    rw [hs₃]
    exact Function.update_self _ _ _
  -- the compare-and-swap
  have hdiff : s.hw ≠ s.lastSeq ∧ (s.hw - s.lastSeq).toNat = 1 := by
    rw [h.inv.hw, h.inv.lastSeq, ← hone]
    constructor
    · intro heq
      have := congrArg UInt32.toNat heq
      rw [UInt32.toNat_ofNat', UInt32.toNat_ofNat'] at this
      omega
    · rw [UInt32.toNat_sub, UInt32.toNat_ofNat', UInt32.toNat_ofNat']
      omega
  have hstep : s₃.step (.processStep s.started) = some (s₃.cmpxchg s.started s.lastSeq s.hw) := by
    have hlt₃ : ¬ s₃.started ≤ s.started := by
      rw [hs₃]
      exact hlt
    simp only [State.step, State.processStep, hrun, if_neg hlt₃]
  have hlast₃ : s₃.lastSeq = s.lastSeq := by
    rw [hs₃]
    rfl
  have hclaimed₃ : s₃.claimed = s.claimed := by
    rw [hs₃]
    rfl
  have hxchg : s₃.cmpxchg s.started s.lastSeq s.hw = { s₃.setRun s.started
      ⟨.load (s.lastSeq &&& s₃.numFencesMask) (s.hw &&& s₃.numFencesMask), s.claimed, s.written,
        s.claimed, s₃.started⟩ with
      lastSeq := s.hw
      claimed := s.written
      owner := fun k => if s.claimed < k ∧ k ≤ s.written then s.started else s₃.owner k } := by
    simp only [State.cmpxchg, hlast₃, hdiff.1, hdiff.2, hrun, hclaimed₃, hone, ne_eq,
      not_true_eq_false, if_false]
  obtain ⟨s₄, hs₄, hrun₄, hfirst₄, hemit₄, hstarted₄, hclaimed₄, hsize₄, hfences₄, hemitted₄, hwritten₄⟩ :
      ∃ s₄, s₃.cmpxchg s.started s.lastSeq s.hw = s₄ ∧
        s₄.runs s.started = ⟨.load (s.lastSeq &&& s₃.numFencesMask) (s.hw &&& s₃.numFencesMask),
          s.claimed, s.written, s.claimed, s₃.started⟩ ∧
        s₄.runs 0 = s₃.runs 0 ∧ s₄.emit = s₃.emit ∧ s₄.started = s₃.started ∧
        s₄.claimed = s.written ∧ s₄.numFences = s₃.numFences ∧ s₄.fences = s₃.fences ∧
        s₄.emitted = s₃.emitted ∧ s₄.written = s₃.written :=
    ⟨_, hxchg, Function.update_self _ _ _, Function.update_of_ne hne.symm _ _, rfl, rfl, rfl, rfl, rfl,
      rfl, rfl⟩
  rw [hs₄] at hstep
  have hgood : Event.NotAround s₃ (.processStep s.started) := by
    intro _ _ _ _ _
    rw [hrun, hclaimed₃]
  refine ⟨s₄, s.started, h₃.next hgood hstep (hemit₄.trans h₃.emit) hsize₄ hstarted₄.ge hfirst₄, hne,
    ?_, ⟨_, _, congrArg Run.pc hrun₄⟩, ?_, ?_, hclaimed₄, ?_, ?_, ?_, ?_⟩
  · rw [hstarted₄, hs₃]
    exact Nat.lt_succ_self _
  · rw [hrun₄]
    exact hone
  · rw [hrun₄]
  · rw [hsize₄, hs₃]
    rfl
  · rw [hfences₄, hs₃]
    rfl
  · rw [hemitted₄, hs₃]
    rfl
  · rw [hwritten₄, hs₃]
    rfl

/-- One more fence is emitted, written by the hardware and signaled by a run of its own. -/
theorem Stalled.round {k : ℕ} {s : State} (h : Stalled s) (hempty : s.fences = fun _ => none)
    (hclaimed : s.claimed = k) (hemitted : s.emitted = k) :
    ∃ s', Stalled s' ∧ (s'.fences = fun _ => none) ∧ s'.claimed = k + 1 ∧ s'.emitted = k + 1 := by
  have hwritten : s.written = k := by
    have h₁ := h.inv.claimed_le
    have h₂ := h.inv.written_le.trans h.inv.committed_le
    simp only [State.stored, h.emit] at h₂
    omega
  have h₁ := (h.emitCommit hempty).write rfl (show s.written < s.emitted + 1 by omega)
  obtain ⟨s₂, i, h₂, hi, hlt, ⟨lastSeq, seq, hpc⟩, hone, hseen, hclaimed₂, hsize, hfences, hemitted₂,
    -⟩ := h₁.claimOne (show s.claimed + 1 = s.emitted + 1 by omega)
  have hseq : s.syncSeq + 1 = UInt32.ofNat (s.emitted + 1) := by
    rw [h.inv.syncSeq, UInt32.ofNat_add]
    rfl
  obtain ⟨s₃, h₃, hnone, hclaimed₃, hemitted₃, -⟩ := h₂.signalOne hi hlt hpc hone (by
    intro j hj
    rw [hfences]
    show Function.update s.fences (s.slot (s.syncSeq + 1)) _ j = none
    rw [Function.update_of_ne, hempty]
    rw [h.inv.slot_eq hseq]
    rwa [hseen, hsize] at hj)
  refine ⟨s₃, h₃, hnone, ?_, ?_⟩
  · rw [hclaimed₃, hclaimed₂, ← hemitted]
  · rw [hemitted₃, hemitted₂, ← hemitted]

/-- The first run reads zero and one, and stands. -/
def stall : List Event :=
  [.emitBegin true, .emitStep, .emitStep, .commit, .hwWrite 1, .processBegin, .processStep 0,
    .processStep 0]

theorem exists_stalled (n : ℕ) : ∃ s, Stalled s ∧ (s.fences = fun _ => none) ∧
    s.claimed = n + 1 ∧ s.emitted = n + 1 := by
  induction n with
  | zero =>
    obtain ⟨s, hs, hall⟩ : ∃ s, fresh.exec stall = some s ∧ s.emit = .idle ∧ s.numFences = 4 ∧
        s.started = 1 ∧ s.runs 0 = ⟨.xchg 0 1, 0, 1, 0, 0⟩ ∧ s.claimed = 0 ∧ s.written = 1 ∧
        s.emitted = 1 ∧ s.fences = Function.update (fun _ => none) 1 (some 1) :=
      ⟨_, rfl, rfl, rfl, rfl, rfl, rfl, rfl, rfl, rfl⟩
    obtain ⟨hemit, hsize, hstarted, hfirst, hclaimed, hwritten, hemitted, hfences⟩ := hall
    have hreach := fresh_reachable.exec (by decide) hs
    have h : Stalled s := ⟨hreach.mono fun _ _ _ => trivial, hreach.inv (by decide), hemit, hsize,
      hstarted ▸ Nat.one_pos, hfirst⟩
    obtain ⟨s₂, i, h₂, hi, hlt, ⟨lastSeq, seq, hpc⟩, hone, hseen, hclaimed₂, hsize₂, hfences₂,
      hemitted₂, -⟩ := h.claimOne (by omega)
    obtain ⟨s₃, h₃, hnone, hclaimed₃, hemitted₃, -⟩ := h₂.signalOne hi hlt hpc hone (by
      intro j hj
      rw [hseen, hwritten, hsize₂, hsize] at hj
      rw [hfences₂, hfences, Function.update_of_ne hj])
    exact ⟨s₃, h₃, hnone, by omega, by omega⟩
  | succ n ih =>
    obtain ⟨s, h, hnone, hclaimed, hemitted⟩ := ih
    exact h.round hnone hclaimed hemitted

/-- When `last_seq` has gone around once the first run's compare-and-swap succeeds, and it signals
a fence that the hardware has not reached. -/
private theorem around_runs : ∃ s : State, s.Reachable 2 (fun _ _ => True) ∧
    s.signaled (2 ^ 32 + 1) = true ∧ s.written = 2 ^ 32 := by
  obtain ⟨n, hn⟩ : ∃ n, n + 1 = 2 ^ 32 := ⟨2 ^ 32 - 1, by omega⟩
  obtain ⟨s, h, hnone, hclaimed, hemitted⟩ := exists_stalled n
  rw [hn] at hclaimed hemitted
  have hwritten : s.written = 2 ^ 32 := by
    have h₁ := h.inv.claimed_le
    have h₂ := h.inv.written_le.trans h.inv.committed_le
    simp only [State.stored, h.emit] at h₂
    omega
  have hlast : s.lastSeq = 0 := by
    rw [h.inv.lastSeq, hclaimed]
    rfl
  have hseq : s.syncSeq + 1 = 1 := by
    rw [h.inv.syncSeq, hemitted]
    rfl
  have hstarted : s.started ≠ 0 := h.started.ne'
  have hreach := (h.emitCommit hnone).reach
  rw [hseq, hemitted] at hreach
  -- claim, load, clear, signal
  obtain ⟨s', hsteps, hsignaled, hwritten'⟩ : ∃ s', State.steps { s with
        syncSeq := 1
        fences := Function.update s.fences (s.slot 1) (some (2 ^ 32 + 1))
        emit := .idle
        emitted := 2 ^ 32 + 1
        committed := 2 ^ 32 + 1 }
      [.processStep 0, .processStep 0, .processStep 0, .processStep 0] = some s' ∧
      s'.signaled (2 ^ 32 + 1) = true ∧ s'.written = s.written := by
    simp [State.steps, State.step, State.processStep, State.cmpxchg, State.setRun, h.first, hlast,
      hstarted, hnone, State.slot]
  exact ⟨s', hreach.steps hsteps, hsignaled, hwritten'.trans hwritten⟩

/-- The first run may be done before the fence that it saw is signaled, by a run that started
after it; a run that stands while `last_seq` goes around signals a fence before the hardware is
there; and zero submissions pass for a power of two, with a mask for slots that do not exist. -/
theorem fences_signal_late_and_early :
    (∃ s : State, s.Reachable 2 (fun _ _ => True) ∧ (s.runs 0).pc = .done ∧
      (s.runs 0).seen = 1 ∧ s.signaled 1 = false) ∧
    (∃ s : State, s.Reachable 2 (fun _ _ => True) ∧ s.signaled (2 ^ 32 + 1) = true ∧
      s.written = 2 ^ 32) ∧
    ∃ s, initRing 0 true = .ok s ∧ s.numFences = 0 ∧ s.slot 1 = 1 :=
  ⟨overtaken_runs, around_runs, _, rfl, rfl, rfl⟩

end Runs

end Gsgpu.FenceDriver
