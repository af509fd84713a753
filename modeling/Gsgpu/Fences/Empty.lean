import Gsgpu.Fences.Signaling

/-! Waiting until a ring is empty. `gsgpu_fence_wait_empty` looks at one slot only, that of the last
number, and takes a number of zero or an empty slot for an idle ring. That is right as long as the
last number has a fence in its slot until the hardware has written it, which fences emitted by
`gsgpu_fence_emit_polling` do not have. -/
namespace Gsgpu.FenceDriver

/-- Where a call of `gsgpu_fence_wait_empty` stands. -/
inductive WaitPc
  | entry
  | load (seq : UInt32)
  | get (fence : ℕ)
  | wait (fence : ℕ)
  | ret (r : ℤ)
deriving DecidableEq

/-- A call of `gsgpu_fence_wait_empty`, with the number of fences emitted before it. -/
structure Waiter where
  pc : WaitPc
  before : ℕ
deriving DecidableEq

/-- The next step of a call. No reference is left of a fence, so that `dma_fence_get_rcu` fails,
only when it has signaled; and the wait for a fence cannot be interrupted. -/
def Waiter.next (w : Waiter) (s : State) (alive : Bool) : Option WaitPc :=
  match w.pc with
  | .load seq =>
    match s.fences (s.slot seq) with
    | none => some (.ret 0)
    | some fence => some (.get fence)
  | .get fence =>
    if alive then some (.wait fence)
    else if s.signaled fence then some (.ret 0)
    else none
  | .wait fence => if s.signaled fence then some (.ret 0) else none
  | _ => none

/-- The fence driver with both ways of emitting a fence and the calls that wait for the ring.
`polled` tells which numbers were given to fences that are only polled for. -/
structure System where
  driver : State
  polled : ℕ → Bool
  waiters : ℕ → Waiter

namespace System

/-- `gsgpu_fence_emit_polling`, by the submitter; `out` says whether there is a place for the
number. -/
def emitPolling (s : System) (out : Bool) : Option System :=
  match s.driver.emit with
  | .idle =>
    if out then
      some { s with
        driver := { s.driver with
          syncSeq := s.driver.syncSeq + 1
          emitted := s.driver.emitted + 1 }
        polled := Function.update s.polled (s.driver.emitted + 1) true }
    else some s
  | _ => none

def setWaiter (s : System) (i : ℕ) (w : Waiter) : System :=
  { s with waiters := Function.update s.waiters i w }

/-- The first step of `gsgpu_fence_wait_empty`, made while no fence is being emitted. -/
def waitBegin (s : System) (i : ℕ) : Option System :=
  match s.driver.emit, (s.waiters i).pc with
  | .idle, .entry =>
    let seq := s.driver.syncSeq
    some (s.setWaiter i ⟨if seq = 0 then .ret 0 else .load seq, s.driver.emitted⟩)
  | _, _ => none

def waitStep (s : System) (i : ℕ) (alive : Bool) : Option System :=
  ((s.waiters i).next s.driver alive).map fun pc => s.setWaiter i { s.waiters i with pc := pc }

inductive Event
  | driver (e : FenceDriver.Event)
  | emitPolling (out : Bool)
  | waitBegin (i : ℕ)
  | waitStep (i : ℕ) (alive : Bool)

def step (s : System) : Event → Option System
  | .driver e => (s.driver.step e).map fun d => { s with driver := d }
  | .emitPolling out => s.emitPolling out
  | .waitBegin i => s.waitBegin i
  | .waitStep i alive => s.waitStep i alive

/-- `gsgpu_fence_driver_init_ring`, before any call. -/
def Initial (num : UInt32) (s : System) : Prop :=
  initRing num true = .ok s.driver ∧ (s.polled = fun _ => false) ∧
    s.waiters = fun _ => ⟨.entry, 0⟩

def Reachable (num : UInt32) (good : System → Event → Prop) (s : System) : Prop :=
  Transition.Reach (Initial num) (fun s e s' => s.step e = some s') good s

end System

/-- A fence is stored in its slot only when the runs are past all earlier numbers of that slot. -/
def Event.StoresPassed (s : State) : Event → Prop
  | .emitStep => ∀ seq fence, s.emit = .assign seq fence → ∀ j < fence,
      j % s.numFences = fence % s.numFences → j ≤ s.claimed ∧ ∀ i, ¬ (s.runs i).Pending j
  | _ => True

/-- The steps after which an answer can be trusted. A call is made when the hardware has written
everything, or else when the last number has not wrapped to zero and has a fence. -/
def System.Event.Good (s : System) : System.Event → Prop
  | .driver e => e.NotAround s.driver ∧ e.StoresPassed s.driver
  | .waitBegin _ => s.driver.emitted ≤ s.driver.written ∨
      s.driver.syncSeq ≠ 0 ∧ s.polled s.driver.emitted = false
  | _ => True

/-- The hardware is past a number, or the fence of that number is still in its slot. -/
def State.Covers (s : State) (k : ℕ) : Prop :=
  k ≤ s.written ∨ s.fences (k % s.numFences) = some k

/-- What a call of `gsgpu_fence_emit` knows about its slot when earlier numbers may have no fence. -/
def State.Storing (s : State) : Prop :=
  match s.emit with
  | .idle => True
  | .look seq fence | .get seq fence => seq = UInt32.ofNat fence ∧ fence = s.emitted
  | .wait seq fence old => (seq = UInt32.ofNat fence ∧ fence = s.emitted) ∧
      ∀ k, s.fences (fence % s.numFences) = some k → k = old
  | .assign seq fence => (seq = UInt32.ofNat fence ∧ fence = s.emitted) ∧
      ∀ k, s.fences (fence % s.numFences) = some k → s.signaled k = true

/-- What the locals of a run say about the hardware: it is past every fence the run holds. -/
def Run.Behind (s : State) (r : Run) : Prop :=
  match r.pc with
  | .start | .done => True
  | .readHw lastSeq => lastSeq = UInt32.ofNat r.readAt ∧ r.readAt ≤ s.claimed
  | .xchg lastSeq seq => lastSeq = UInt32.ofNat r.readAt ∧ seq = UInt32.ofNat r.seen ∧
      r.readAt ≤ r.seen ∧ r.seen ≤ s.written
  | .load lastSeq seq => Walks s.numFences r.pos r.seen lastSeq seq ∧ r.pos < r.seen ∧
      r.seen ≤ s.written
  | .clear lastSeq seq fence => Walks s.numFences r.pos r.seen lastSeq seq ∧ r.seen ≤ s.written ∧
      ∀ k, fence = some k → k ≤ r.seen
  | .signal lastSeq seq fence => Walks s.numFences r.pos r.seen lastSeq seq ∧
      r.seen ≤ s.written ∧ fence ≤ r.seen

/-- What a call of `gsgpu_fence_wait_empty` has found out. -/
def Waiter.Knows (s : State) (w : Waiter) : Prop :=
  match w.pc with
  | .entry => True
  | .load seq => seq = UInt32.ofNat w.before ∧ s.Covers w.before
  | .get fence | .wait fence => w.before ≤ s.written ∨ fence = w.before
  | .ret _ => w.before ≤ s.written

/-- The part of the driver's invariant that polled fences leave. A fence in a slot is the earliest
number of that slot that is not yet claimed, so no run takes it before the hardware is there. -/
structure State.Trailing (s : State) : Prop where
  sized : Sized s.numFences s.numFencesMask
  syncSeq : s.syncSeq = UInt32.ofNat s.emitted
  lastSeq : s.lastSeq = UInt32.ofNat s.claimed
  hw : s.hw = UInt32.ofNat s.written
  claimed_le : s.claimed ≤ s.written
  storing : s.Storing
  slot : ∀ j k, s.fences j = some k → k % s.numFences = j
  unclaimed : ∀ j k, s.claimed < j → s.fences (j % s.numFences) = some k → k ≤ j
  behind : ∀ i, (s.runs i).Behind s
  pending : ∀ i j k, (s.runs i).Pending j → s.fences (j % s.numFences) = some k →
    k ≤ (s.runs i).seen
  signaled : ∀ k, s.signaled k = true → k ≤ s.written

/-- What holds in every state when all steps are good. -/
structure System.Inv (s : System) : Prop where
  trailing : s.driver.Trailing
  last : s.driver.emit = .idle → s.polled s.driver.emitted = false →
    s.driver.Covers s.driver.emitted
  waiters : ∀ i, (s.waiters i).Knows s.driver

theorem Run.Pending.le {r : Run} {j : ℕ} (h : r.Pending j) : j ≤ r.seen := by
  unfold Run.Pending at h
  split at h
  · exact h.2
  · exact h.2
  · exact h.2
  · exact h.elim

/-- What is known of a run stays known when the driver goes on. -/
theorem Run.Behind.mono {s s' : State} {r : Run} (h : r.Behind s)
    (hsize : s'.numFences = s.numFences) (hclaimed : s.claimed ≤ s'.claimed)
    (hwritten : s.written ≤ s'.written) : r.Behind s' := by
  unfold Run.Behind at h ⊢
  split at h
  · trivial
  · trivial
  · exact ⟨h.1, h.2.trans hclaimed⟩
  · exact ⟨h.1, h.2.1, h.2.2.1, h.2.2.2.trans hwritten⟩
  · rw [hsize]
    exact ⟨h.1, h.2.1, h.2.2.trans hwritten⟩
  · rw [hsize]
    exact ⟨h.1, h.2.1.trans hwritten, h.2.2⟩
  · rw [hsize]
    exact ⟨h.1, h.2.1.trans hwritten, h.2.2⟩

/-- The end of the loop keeps what is known of the run. -/
theorem Walks.test_behind {s : State} {r : Run} {lastSeq seq : UInt32}
    (h : Walks s.numFences r.pos r.seen lastSeq seq) (hle : r.seen ≤ s.written) :
    Run.Behind s { r with pc := .test lastSeq seq } := by
  unfold Pc.test
  split
  · next hne => exact ⟨h, h.pos_lt hne, hle⟩
  · trivial

/-- After the end of the loop only later numbers are left. -/
theorem Run.Pending.of_test {r : Run} {j : ℕ} {lastSeq seq : UInt32}
    (hj : Run.Pending { r with pc := .test lastSeq seq } j) : r.pos < j ∧ j ≤ r.seen := by
  unfold Pc.test at hj
  split at hj
  · exact hj
  · exact hj.elim

theorem Waiter.Knows.mono {s s' : State} {w : Waiter} (h : w.Knows s)
    (hwritten : s.written ≤ s'.written) (hcovers : ∀ k, s.Covers k → s'.Covers k) :
    w.Knows s' := by
  unfold Waiter.Knows at h ⊢
  split at h
  · trivial
  · exact ⟨h.1, hcovers _ h.2⟩
  · exact h.imp_left fun hle => hle.trans hwritten
  · exact h.imp_left fun hle => hle.trans hwritten
  · exact h.trans hwritten

/-- What a step of the driver gives: it keeps the invariant and what is covered, and the last
number is covered when its emission is over. -/
structure State.Advance (s s' : State) : Prop where
  trailing : s'.Trailing
  written_le : s.written ≤ s'.written
  covers : ∀ k, s.Covers k → s'.Covers k
  last : s'.emit = .idle → s.emit = .idle ∧ s'.emitted = s.emitted ∨ s'.Covers s'.emitted

namespace State

variable {s s' : State} {i : ℕ} {r : Run}

/-- A step of a run that leaves the slots. -/
theorem Trailing.setRun (h : s.Trailing) (hbehind : r.Behind s)
    (hpending : ∀ j k, r.Pending j → s.fences (j % s.numFences) = some k → k ≤ r.seen) :
    s.Advance (s.setRun i r) := by
  refine ⟨?_, le_rfl, fun k hk => hk, fun hidle => .inl ⟨hidle, rfl⟩⟩
  refine { h with behind := ?_, pending := ?_ }
  · exact forall_setRun (P := fun _ r => r.Behind s) hbehind fun j _ => h.behind j
  · exact forall_setRun (P := fun _ r => ∀ j k, r.Pending j →
      s.fences (j % s.numFences) = some k → k ≤ r.seen) hpending fun j _ => h.pending j

theorem Trailing.processBegin (h : s.Trailing) : s.Advance s.processBegin := by
  obtain ⟨htrailing, hwritten, hcovers, hlast⟩ :=
    h.setRun (i := s.started) (r := ⟨.start, 0, 0, 0, 0⟩) trivial fun j k hj => hj.elim
  exact ⟨{ htrailing with }, hwritten, hcovers, hlast⟩

/-- The compare-and-swap. The numbers claimed are at most the one seen, also when that is a
whole round of 32-bit numbers ahead. -/
theorem Trailing.cmpxchg (h : s.Trailing) {lastSeq seq : UInt32}
    (hpc : (s.runs i).pc = .xchg lastSeq seq)
    (hgood : s.lastSeq = lastSeq → seq ≠ lastSeq → s.claimed = (s.runs i).readAt) :
    s.Advance (s.cmpxchg i lastSeq seq) := by
  have hbehind := h.behind i
  simp only [Run.Behind, hpc] at hbehind
  obtain ⟨hl, hq, hle, hw⟩ := hbehind
  rw [State.cmpxchg]
  split
  · exact h.setRun trivial fun j k hj => hj.elim
  · next heq =>
    have hlast := not_ne_iff.mp heq
    split
    · exact h.setRun trivial fun j k hj => hj.elim
    · next hne =>
      have hat := hgood hlast hne
      rw [← hat] at hle hl
      have hlt : s.claimed < (s.runs i).seen := by
        refine lt_of_le_of_ne hle fun heq => hne ?_
        rw [hq, hl, heq]
      -- how far the 32-bit numbers are apart
      have hdiff : (seq - lastSeq).toNat = ((s.runs i).seen - s.claimed) % 2 ^ 32 := by
        rw [hq, hl, UInt32.toNat_sub, UInt32.toNat_ofNat', UInt32.toNat_ofNat']
        omega
      have hclaimed : s.claimed + (seq - lastSeq).toNat ≤ (s.runs i).seen := by
        have := Nat.mod_le ((s.runs i).seen - s.claimed) (2 ^ 32)
        omega
      have hseq : seq = UInt32.ofNat (s.claimed + (seq - lastSeq).toNat) := by
        rw [← UInt32.toNat_inj, hdiff, hq, UInt32.toNat_ofNat', UInt32.toNat_ofNat']
        omega
      have hlocal : Walks s.numFences s.claimed (s.runs i).seen (lastSeq &&& s.numFencesMask)
          (seq &&& s.numFencesMask) := by
        refine ⟨?_, ?_, hle⟩
        · rw [hl]
          exact h.sized.ofNat _
        · rw [hq]
          exact h.sized.ofNat _
      refine ⟨?_, le_rfl, fun k hk => hk, fun hidle => .inl ⟨hidle, rfl⟩⟩
      refine { h with
        lastSeq := hseq, claimed_le := hclaimed.trans hw, unclaimed := ?_, behind := ?_,
        pending := ?_ }
      · intro j k hj
        exact h.unclaimed j k ((Nat.le_add_right _ _).trans_lt hj)
      · refine forall_setRun (P := fun _ r => Run.Behind _ r) ⟨hlocal, hlt, hw⟩ fun j _ => ?_
        exact (h.behind j).mono rfl (Nat.le_add_right _ _) le_rfl
      · refine forall_setRun (P := fun _ r => ∀ j k, r.Pending j →
          s.fences (j % s.numFences) = some k → k ≤ r.seen) ?_ fun j _ => h.pending j
        intro j k hj hk
        have hj : s.claimed < j ∧ j ≤ (s.runs i).seen := hj
        exact (h.unclaimed j k hj.1 hk).trans hj.2

/-- Loading the next slot of the range. -/
theorem Trailing.load (h : s.Trailing) {lastSeq seq : UInt32}
    (hpc : (s.runs i).pc = .load lastSeq seq) :
    s.Advance (s.setRun i { s.runs i with
      pc := .clear ((lastSeq + 1) &&& s.numFencesMask) seq
        (s.fences ((lastSeq + 1) &&& s.numFencesMask).toNat)
      pos := (s.runs i).pos + 1 }) := by
  have hbehind := h.behind i
  simp only [Run.Behind, hpc] at hbehind
  obtain ⟨hwalk, hlt, hle⟩ := hbehind
  have hidx : ((lastSeq + 1) &&& s.numFencesMask).toNat = ((s.runs i).pos + 1) % s.numFences :=
    hwalk.succ h.sized
  have hpend : ∀ j, (s.runs i).pos + 1 ≤ j ∧ j ≤ (s.runs i).seen → (s.runs i).Pending j := by
    intro j hj
    simpa [Run.Pending, hpc, Nat.succ_le_iff] using hj
  refine h.setRun ⟨⟨hidx, hwalk.stop, hlt⟩, hle, ?_⟩ ?_
  · intro k hk
    rw [hidx] at hk
    exact h.pending i _ k (hpend _ ⟨le_rfl, hlt⟩) hk
  · intro j k hj hk
    exact h.pending i j k (hpend j hj) hk

/-- An emitter does not mind when a slot loses its fence. -/
theorem Storing.mono (h : s.Storing) (hemit : s'.emit = s.emit) (hemitted : s'.emitted = s.emitted)
    (hsize : s'.numFences = s.numFences)
    (hsub : ∀ j k, s'.fences j = some k → s.fences j = some k)
    (hsignaled : ∀ k, s.signaled k = true → s'.signaled k = true) : s'.Storing := by
  unfold Storing at h ⊢
  rw [hemit, hemitted, hsize]
  split at h
  · trivial
  · exact h
  · exact h
  · exact ⟨h.1, fun k hk => h.2 k (hsub _ _ hk)⟩
  · exact ⟨h.1, fun k hk => hsignaled k (h.2 k (hsub _ _ hk))⟩

/-- Emptying a slot: the hardware is past what was in it. -/
theorem Trailing.clear (h : s.Trailing) {lastSeq seq : UInt32} {fence : Option ℕ}
    (hpc : (s.runs i).pc = .clear lastSeq seq fence) {pc : Pc}
    (hbehind : Run.Behind s { s.runs i with pc := pc })
    (hpend : ∀ j, Run.Pending { s.runs i with pc := pc } j → (s.runs i).Pending j) :
    s.Advance (State.setRun { s with fences := Function.update s.fences lastSeq.toNat none } i
      { s.runs i with pc := pc }) := by
  have hlocal := h.behind i
  simp only [Run.Behind, hpc] at hlocal
  obtain ⟨hwalk, hle, -⟩ := hlocal
  have hsub : ∀ j k, Function.update s.fences lastSeq.toNat none j = some k →
      s.fences j = some k := by
    intro j k hk
    by_cases hj : j = lastSeq.toNat
    · subst hj
      simp at hk
    · rwa [Function.update_of_ne hj] at hk
  have hcleared : Trailing { s with fences := Function.update s.fences lastSeq.toNat none } :=
    { h with
      storing := h.storing.mono rfl rfl rfl hsub fun _ hk => hk
      slot := fun j k hk => h.slot j k (hsub j k hk)
      unclaimed := fun j k hj hk => h.unclaimed j k hj (hsub _ k hk)
      behind := fun j => (h.behind j).mono rfl le_rfl le_rfl
      pending := fun m j k hj hk => h.pending m j k hj (hsub _ k hk) }
  obtain ⟨htrailing, hwritten, hcovers, hlast⟩ :=
    hcleared.setRun (i := i) (r := { s.runs i with pc := pc }) (hbehind.mono rfl le_rfl le_rfl)
      fun j k hj hk => h.pending i j k (hpend j hj) (hsub _ k hk)
  refine ⟨htrailing, hwritten, fun k hk => hcovers k ?_, hlast⟩
  rcases hk with hk | hk
  · exact .inl hk
  · by_cases hslot : k % s.numFences = lastSeq.toNat
    · have hpos : (s.runs i).Pending (s.runs i).pos := by
        simpa [Run.Pending, hpc] using hwalk.le
      rw [hslot, hwalk.last] at hk
      exact .inl ((h.pending i _ k hpos hk).trans hle)
    · right
      show Function.update s.fences lastSeq.toNat none (k % s.numFences) = some k
      rw [Function.update_of_ne hslot, hk]

theorem Trailing.signal (h : s.Trailing) {lastSeq seq : UInt32} {fence : ℕ}
    (hpc : (s.runs i).pc = .signal lastSeq seq fence) :
    s.Advance { s.setRun i { s.runs i with pc := .test lastSeq seq } with
      signaled := Function.update s.signaled fence true
      bug := s.bug || s.signaled fence } := by
  have hlocal := h.behind i
  simp only [Run.Behind, hpc] at hlocal
  obtain ⟨hwalk, hle, hfence⟩ := hlocal
  have hkeep : ∀ k, s.signaled k = true → Function.update s.signaled fence true k = true := by
    intro k hk
    by_cases hkf : k = fence
    · rw [hkf, Function.update_self]
    · rwa [Function.update_of_ne hkf]
  obtain ⟨htrailing, hwritten, hcovers, hlast⟩ :=
    h.setRun (i := i) (r := { s.runs i with pc := .test lastSeq seq }) (hwalk.test_behind hle) (by
      intro j k hj hk
      refine h.pending i j k ?_ hk
      simpa [Run.Pending, hpc] using hj.of_test)
  refine ⟨{ htrailing with storing := ?_, behind := ?_, signaled := ?_ }, hwritten, hcovers, hlast⟩
  · exact htrailing.storing.mono rfl rfl rfl (fun _ _ hk => hk) hkeep
  · exact fun j => (htrailing.behind j).mono rfl le_rfl le_rfl
  · intro k hk
    by_cases hkf : k = fence
    · rw [hkf]
      exact hfence.trans hle
    · dsimp only at hk
      rw [Function.update_of_ne hkf] at hk
      exact h.signaled k hk

theorem Trailing.processStep (h : s.Trailing) (hgood : Event.NotAround s (.processStep i))
    (hstep : s.processStep i = some s') : s.Advance s' := by
  simp only [State.processStep] at hstep
  split at hstep
  · cases hstep
  · have hbehind := h.behind i
    cases hpc : (s.runs i).pc with
    | start =>
      simp only [hpc, Option.some.injEq] at hstep
      rw [← hstep]
      exact h.setRun ⟨h.lastSeq, le_rfl⟩ fun j k hj => hj.elim
    | readHw lastSeq =>
      simp only [hpc, Option.some.injEq] at hstep
      rw [← hstep]
      simp only [Run.Behind, hpc] at hbehind
      refine h.setRun ?_ fun j k hj => hj.elim
      exact ⟨hbehind.1, h.hw, hbehind.2.trans h.claimed_le, le_rfl⟩
    | xchg lastSeq seq =>
      simp only [hpc, Option.some.injEq] at hstep
      rw [← hstep]
      exact h.cmpxchg hpc (hgood lastSeq seq hpc)
    | load lastSeq seq =>
      simp only [hpc, Option.some.injEq] at hstep
      rw [← hstep]
      exact h.load hpc
    | clear lastSeq seq fence =>
      simp only [Run.Behind, hpc] at hbehind
      obtain ⟨hwalk, hle, hfence⟩ := hbehind
      cases fence with
      | none =>
        simp only [hpc, Option.some.injEq] at hstep
        rw [← hstep]
        refine h.clear hpc (hwalk.test_behind hle) fun j hj => ?_
        simpa [Run.Pending, hpc] using And.imp_left le_of_lt hj.of_test
      | some k =>
        simp only [hpc, Option.some.injEq] at hstep
        rw [← hstep]
        refine h.clear hpc ⟨hwalk, hle, hfence k rfl⟩ fun j hj => ?_
        have hj : (s.runs i).pos < j ∧ j ≤ (s.runs i).seen := hj
        simpa [Run.Pending, hpc] using And.imp_left le_of_lt hj
    | signal lastSeq seq fence =>
      simp only [hpc, Option.some.injEq] at hstep
      rw [← hstep]
      exact h.signal hpc
    | done =>
      simp only [hpc] at hstep
      cases hstep

theorem Trailing.succ_syncSeq (h : s.Trailing) : s.syncSeq + 1 = UInt32.ofNat (s.emitted + 1) := by
  rw [h.syncSeq, UInt32.ofNat_add]
  rfl

theorem Trailing.emitBegin (h : s.Trailing) {allocOk : Bool}
    (hstep : s.emitBegin allocOk = some s') : s.Advance s' := by
  simp only [State.emitBegin] at hstep
  split at hstep
  · next hidle =>
    split at hstep
    · obtain rfl := Option.some.inj hstep
      refine ⟨?_, le_rfl, fun k hk => hk, fun hidle => by cases hidle⟩
      exact { h with
        syncSeq := h.succ_syncSeq
        storing := ⟨h.succ_syncSeq, rfl⟩
        behind := fun i => (h.behind i).mono rfl le_rfl le_rfl }
    · obtain rfl := Option.some.inj hstep
      exact ⟨h, le_rfl, fun k hk => hk, fun hidle => .inl ⟨hidle, rfl⟩⟩
  · cases hstep

/-- A step of the emitter that only changes where it stands. -/
theorem Trailing.setEmit (h : s.Trailing) {emit : Emit} (hne : emit ≠ .idle)
    (hstoring : Storing { s with emit := emit }) : s.Advance { s with emit := emit } :=
  ⟨{ h with
      storing := hstoring
      behind := fun i => (h.behind i).mono rfl le_rfl le_rfl },
    le_rfl, fun _ hk => hk, fun hidle => (hne hidle).elim⟩

theorem Trailing.slot_eq (h : s.Trailing) {seq : UInt32} {fence : ℕ}
    (hseq : seq = UInt32.ofNat fence) : s.slot seq = fence % s.numFences := by
  rw [State.slot, hseq]
  exact h.sized.ofNat fence

/-- Storing the new fence. What was in its slot has signaled, and the numbers left to the runs in
that slot are not before the new one. -/
theorem Trailing.assign (h : s.Trailing) {seq : UInt32} {fence : ℕ}
    (hemit : s.emit = .assign seq fence)
    (hgood : ∀ j < fence, j % s.numFences = fence % s.numFences →
      j ≤ s.claimed ∧ ∀ i, ¬ (s.runs i).Pending j) :
    s.Advance { s with
      fences := Function.update s.fences (s.slot seq) (some fence)
      emit := .idle } := by
  have hstoring := h.storing
  simp only [Storing, hemit] at hstoring
  obtain ⟨⟨hseq, hfence⟩, hold⟩ := hstoring
  rw [h.slot_eq hseq]
  have hself : Function.update s.fences (fence % s.numFences) (some fence)
      (fence % s.numFences) = some fence := Function.update_self _ _ _
  have hcases : ∀ j k, Function.update s.fences (fence % s.numFences) (some fence) j = some k →
      j = fence % s.numFences ∧ k = fence ∨ s.fences j = some k := by
    intro j k hk
    by_cases hj : j = fence % s.numFences
    · subst hj
      rw [hself] at hk
      exact .inl ⟨rfl, (Option.some.inj hk).symm⟩
    · rw [Function.update_of_ne hj] at hk
      exact .inr hk
  refine ⟨{ h with
    storing := trivial, slot := ?_, unclaimed := ?_, behind := ?_, pending := ?_ }, le_rfl, ?_, ?_⟩
  · intro j k hk
    rcases hcases j k hk with ⟨rfl, rfl⟩ | hk
    · rfl
    · exact h.slot j k hk
  · intro j k hj hk
    rcases hcases _ k hk with ⟨hmod, rfl⟩ | hk
    · by_contra hlt
      exact (hgood j (not_le.mp hlt) hmod).1.not_gt hj
    · exact h.unclaimed j k hj hk
  · exact fun i => (h.behind i).mono rfl le_rfl le_rfl
  · intro i j k hj hk
    rcases hcases _ k hk with ⟨hmod, rfl⟩ | hk
    · by_contra hlt
      exact (hgood j (hj.le.trans_lt (not_le.mp hlt)) hmod).2 i hj
    · exact h.pending i j k hj hk
  · intro k hk
    rcases hk with hk | hk
    · exact .inl hk
    · by_cases hmod : k % s.numFences = fence % s.numFences
      · rw [hmod] at hk
        exact .inl (h.signaled k (hold k hk))
      · right
        show Function.update s.fences (fence % s.numFences) (some fence) (k % s.numFences) = some k
        rw [Function.update_of_ne hmod, hk]
  · intro _
    right
    show State.Covers _ s.emitted
    rw [← hfence]
    exact .inr hself

theorem Trailing.emitStep (h : s.Trailing) (hgood : Event.StoresPassed s .emitStep)
    (hstep : s.emitStep = some s') : s.Advance s' := by
  have hstoring := h.storing
  simp only [State.emitStep] at hstep
  cases hemit : s.emit with
  | idle =>
    simp only [hemit] at hstep
    cases hstep
  | look seq fence =>
    simp only [hemit, Storing] at hstep hstoring
    have hslot := h.slot_eq hstoring.1
    cases hold : s.fences (s.slot seq) with
    | none =>
      simp only [hold, Option.some.injEq] at hstep
      rw [← hstep]
      refine h.setEmit (by simp) ⟨hstoring, fun k hk => ?_⟩
      rw [← hslot, hold] at hk
      cases hk
    | some old =>
      simp only [hold, Option.some.injEq] at hstep
      rw [← hstep]
      exact h.setEmit (by simp) hstoring
  | get seq fence =>
    simp only [hemit, Storing] at hstep hstoring
    have hslot := h.slot_eq hstoring.1
    cases hold : s.fences (s.slot seq) with
    | none =>
      simp only [hold, Option.some.injEq] at hstep
      rw [← hstep]
      refine h.setEmit (by simp) ⟨hstoring, fun k hk => ?_⟩
      rw [← hslot, hold] at hk
      cases hk
    | some old =>
      simp only [hold, Option.some.injEq] at hstep
      rw [← hstep]
      refine h.setEmit (by simp) ⟨hstoring, fun k hk => ?_⟩
      rw [← hslot, hold] at hk
      exact (Option.some.inj hk).symm
  | wait seq fence old =>
    simp only [hemit, Storing] at hstep hstoring
    split at hstep
    · next hsignaled =>
      obtain rfl := Option.some.inj hstep
      refine h.setEmit (by simp) ⟨hstoring.1, fun k hk => ?_⟩
      rw [hstoring.2 k hk]
      exact hsignaled
    · cases hstep
  | assign seq fence =>
    simp only [hemit, Option.some.injEq] at hstep
    rw [← hstep]
    exact h.assign hemit (hgood seq fence hemit)

theorem Trailing.commit (h : s.Trailing) (hstep : s.commit = some s') : s.Advance s' := by
  simp only [State.commit] at hstep
  split at hstep
  · next hidle =>
    obtain rfl := Option.some.inj hstep
    refine ⟨?_, le_rfl, fun k hk => hk, fun _ => .inl ⟨hidle, rfl⟩⟩
    exact { h with behind := fun i => (h.behind i).mono rfl le_rfl le_rfl }
  · cases hstep

theorem Trailing.hwWrite (h : s.Trailing) {k : ℕ} (hstep : s.hwWrite k = some s') :
    s.Advance s' := by
  simp only [State.hwWrite] at hstep
  split at hstep
  · next hk =>
    obtain rfl := Option.some.inj hstep
    refine ⟨{ h with hw := rfl, claimed_le := ?_, behind := ?_, signaled := ?_ }, hk.1.le, ?_, ?_⟩
    · exact h.claimed_le.trans hk.1.le
    · exact fun i => (h.behind i).mono rfl le_rfl hk.1.le
    · exact fun m hm => (h.signaled m hm).trans hk.1.le
    · exact fun m hm => hm.imp_left fun hle => hle.trans hk.1.le
    · exact fun hidle => .inl ⟨hidle, rfl⟩
  · cases hstep

theorem Trailing.step (h : s.Trailing) {e : Event} (haround : e.NotAround s)
    (hpassed : e.StoresPassed s) (hstep : s.step e = some s') : s.Advance s' := by
  cases e with
  | emitBegin allocOk => exact h.emitBegin hstep
  | emitStep => exact h.emitStep hpassed hstep
  | commit => exact h.commit hstep
  | hwWrite k => exact h.hwWrite hstep
  | processBegin => exact Option.some.inj hstep ▸ h.processBegin
  | processStep i => exact h.processStep haround hstep

theorem trailing_of_initRing {num : UInt32} (hnum : num * 2 ≠ 0) (h : initRing num true = .ok s) :
    s.Trailing := by
  have hinv := inv_of_initRing hnum h
  unfold initRing at h
  split at h
  · cases h
  · obtain rfl := Except.ok.inj h
    exact {
      sized := hinv.sized
      syncSeq := rfl
      lastSeq := rfl
      hw := rfl
      claimed_le := le_rfl
      storing := trivial
      slot := fun j k hk => nomatch hk
      unclaimed := fun j k _ hk => nomatch hk
      behind := fun i => trivial
      pending := fun i j k hj => hj.elim
      signaled := fun k hk => nomatch hk }

/-- Where every number has a fence, fences are stored as they should be. -/
theorem Inv.storesPassed (h : s.Inv) (e : Event) : e.StoresPassed s := by
  cases e with
  | emitStep =>
    intro seq fence hemit j hlt hmod
    have hnone := (h.assign hemit).1
    have hemitting := h.emitting
    simp only [Emitting, hemit] at hemitting
    obtain ⟨hseq, hfence, -⟩ := hemitting
    rw [h.slot_eq hseq, ← hmod] at hnone
    constructor
    · by_contra hgt
      have hslot := h.unclaimed j (not_le.mp hgt) (by omega)
      rw [hnone] at hslot
      cases hslot
    · intro i hj
      have hslot := (h.pending i j hj).1
      rw [hnone] at hslot
      cases hslot
  | _ => trivial

end State

/-- What is in the slot of a covered number is its fence, or no longer matters. -/
theorem Waiter.Knows.next {s : State} {w : Waiter} {alive : Bool} {pc : WaitPc} (h : w.Knows s)
    (hs : s.Trailing) (hnext : w.next s alive = some pc) : Waiter.Knows s { w with pc := pc } := by
  have hsignaled : ∀ fence, w.before ≤ s.written ∨ fence = w.before → s.signaled fence = true →
      w.before ≤ s.written := by
    intro fence hle hsignaled
    rcases hle with hle | rfl
    · exact hle
    · exact hs.signaled _ hsignaled
  unfold Waiter.next at hnext
  unfold Waiter.Knows at h
  cases hpc : w.pc with
  | load seq =>
    simp only [hpc] at hnext h
    obtain ⟨hseq, hcovers⟩ := h
    rw [hs.slot_eq hseq] at hnext
    rcases hcovers with hle | hslot
    · split at hnext
      · obtain rfl := Option.some.inj hnext
        exact hle
      · obtain rfl := Option.some.inj hnext
        exact .inl hle
    · simp only [hslot, Option.some.injEq] at hnext
      rw [← hnext]
      exact .inr rfl
  | get fence =>
    simp only [hpc] at hnext h
    split at hnext
    · obtain rfl := Option.some.inj hnext
      exact h
    · split at hnext
      · next hsig =>
        obtain rfl := Option.some.inj hnext
        exact hsignaled fence h hsig
      · cases hnext
  | wait fence =>
    simp only [hpc] at hnext h
    split at hnext
    · next hsig =>
      obtain rfl := Option.some.inj hnext
      exact hsignaled fence h hsig
    · cases hnext
  | entry =>
    simp only [hpc] at hnext
    cases hnext
  | ret r =>
    simp only [hpc] at hnext
    cases hnext

namespace System

variable {s s' : System}

theorem Inv.driver (h : s.Inv) {d : State} (hd : s.driver.Advance d) :
    Inv { s with driver := d } := by
  refine ⟨hd.trailing, ?_, fun i => (h.waiters i).mono hd.written_le hd.covers⟩
  intro hidle hpolled
  rcases hd.last hidle with ⟨hidle, hemitted⟩ | hcovers
  · dsimp only at hpolled ⊢
    rw [hemitted] at hpolled ⊢
    exact hd.covers _ (h.last hidle hpolled)
  · exact hcovers

/-- A polled fence takes a number and leaves the slots. -/
theorem Inv.emitPolling (h : s.Inv) {out : Bool} (hstep : s.emitPolling out = some s') :
    s'.Inv := by
  simp only [System.emitPolling] at hstep
  split at hstep
  · next hidle =>
    split at hstep
    · obtain rfl := Option.some.inj hstep
      refine ⟨?_, ?_, fun i => (h.waiters i).mono le_rfl fun k hk => hk⟩
      · have hstoring := h.trailing.storing
        refine { h.trailing with
          syncSeq := h.trailing.succ_syncSeq
          storing := ?_
          behind := fun i => (h.trailing.behind i).mono rfl le_rfl le_rfl }
        simp only [State.Storing, hidle]
      · intro _ hpolled
        have htrue : Function.update s.polled (s.driver.emitted + 1) true (s.driver.emitted + 1) =
            true := Function.update_self _ _ _
        exact absurd (htrue.symm.trans hpolled) (by decide)
    · obtain rfl := Option.some.inj hstep
      exact h
  · cases hstep

theorem Inv.setWaiter (h : s.Inv) {i : ℕ} {w : Waiter} (hw : w.Knows s.driver) :
    (s.setWaiter i w).Inv := by
  refine { h with waiters := fun j => ?_ }
  by_cases hj : j = i
  · subst hj
    simpa only [System.setWaiter, Function.update_self] using hw
  · simpa only [System.setWaiter, Function.update_of_ne hj] using h.waiters j

theorem Inv.waitBegin (h : s.Inv) {i : ℕ} (hgood : Event.Good s (.waitBegin i))
    (hstep : s.waitBegin i = some s') : s'.Inv := by
  simp only [System.waitBegin] at hstep
  split at hstep
  · next hidle _ =>
    obtain rfl := Option.some.inj hstep
    refine h.setWaiter ?_
    by_cases hzero : s.driver.syncSeq = 0
    · rw [if_pos hzero]
      exact hgood.resolve_right fun hne => hne.1 hzero
    · rw [if_neg hzero]
      refine ⟨h.trailing.syncSeq, ?_⟩
      rcases hgood with hle | ⟨-, hpolled⟩
      · exact .inl hle
      · exact h.last hidle hpolled
  · cases hstep

theorem Inv.waitStep (h : s.Inv) {i : ℕ} {alive : Bool}
    (hstep : s.waitStep i alive = some s') : s'.Inv := by
  obtain ⟨pc, hpc, rfl⟩ := Option.map_eq_some_iff.mp hstep
  exact h.setWaiter ((h.waiters i).next h.trailing hpc)

theorem Inv.step (h : s.Inv) {e : Event} (hgood : e.Good s) (hstep : s.step e = some s') :
    s'.Inv := by
  cases e with
  | driver e =>
    obtain ⟨d, hd, rfl⟩ := Option.map_eq_some_iff.mp hstep
    exact h.driver (h.trailing.step hgood.1 hgood.2 hd)
  | emitPolling out => exact h.emitPolling hstep
  | waitBegin i => exact h.waitBegin hgood hstep
  | waitStep i alive => exact h.waitStep hstep

theorem Initial.inv {num : UInt32} (hnum : num * 2 ≠ 0) (h : Initial num s) : s.Inv := by
  obtain ⟨hdriver, -, hwaiters⟩ := h
  have htrailing := State.trailing_of_initRing hnum hdriver
  refine ⟨htrailing, fun _ _ => .inl ?_, fun i => ?_⟩
  · rw [initRing] at hdriver
    split at hdriver
    · cases hdriver
    · obtain heq := Except.ok.inj hdriver
      rw [← heq]
  · rw [hwaiters]
    trivial

theorem Reachable.inv {num : UInt32} (hnum : num * 2 ≠ 0)
    (h : s.Reachable num fun s e => e.Good s) : s.Inv :=
  Transition.Reach.invariant (I := Inv) (fun _ hi => hi.inv hnum)
    (fun _ _ _ hs hg hstep => hs.step hg hstep) h

end System

/-- In every run whose steps are all good, once `gsgpu_fence_wait_empty` has returned 0 the hardware
has written the number of the last fence emitted before the call, or a later one. -/
theorem waitEmpty_sound (num : UInt32) (hnum : num * 2 ≠ 0) {s : System}
    (h : s.Reachable num fun s e => e.Good s) :
    ∀ i, (s.waiters i).pc = .ret 0 → (s.waiters i).before ≤ s.driver.written := by
  intro i hret
  have hknows := (h.inv hnum).waiters i
  simpa only [Waiter.Knows, hret] using hknows

/-- No fence is polled for, and no call is made between the wrap of the numbers to zero and the
hardware's. -/
def System.Event.Fenced (s : System) : System.Event → Prop
  | .driver e => e.NotAround s.driver
  | .emitPolling _ => False
  | .waitBegin _ => s.driver.syncSeq = 0 → s.driver.emitted ≤ s.driver.written
  | .waitStep _ _ => True

namespace System

variable {s : System}

/-- Without polled fences the steps are good, but for a call just after the numbers wrapped. -/
theorem Reachable.good_of_fenced {num : UInt32} (hnum : num * 2 ≠ 0)
    (h : s.Reachable num fun s e => e.Fenced s) :
    s.Reachable num (fun s e => e.Good s) ∧ s.driver.Inv ∧ ∀ k, s.polled k = false := by
  induction h with
  | start hi => exact ⟨.start hi, State.inv_of_initRing hnum hi.1, fun k => congrFun hi.2.1 k⟩
  | @next s s' e _ hg hstep ih =>
    obtain ⟨hreach, hinv, hpolled⟩ := ih
    cases e with
    | driver e =>
      have hnext : s'.Reachable num fun s e => e.Good s :=
        .next hreach (e := .driver e) ⟨hg, hinv.storesPassed e⟩ hstep
      obtain ⟨d, hd, rfl⟩ := Option.map_eq_some_iff.mp hstep
      exact ⟨hnext, hinv.step hg hd, hpolled⟩
    | emitPolling out => exact hg.elim
    | waitBegin i =>
      have hgood : Event.Good s (.waitBegin i) := by
        by_cases hzero : s.driver.syncSeq = 0
        · exact .inl (hg hzero)
        · exact .inr ⟨hzero, hpolled _⟩
      have hnext := hreach.next hgood hstep
      simp only [System.step, System.waitBegin] at hstep
      split at hstep
      · obtain rfl := Option.some.inj hstep
        exact ⟨hnext, hinv, hpolled⟩
      · cases hstep
    | waitStep i alive =>
      have hnext : s'.Reachable num fun s e => e.Good s :=
        .next hreach (e := .waitStep i alive) trivial hstep
      obtain ⟨pc, -, rfl⟩ := Option.map_eq_some_iff.mp hstep
      exact ⟨hnext, hinv, hpolled⟩

end System

section Runs

/-- A driver of four slots, as `gsgpu_fence_driver_init_ring` leaves it. -/
def System.fresh : System := ⟨FenceDriver.fresh, fun _ => false, fun _ => ⟨.entry, 0⟩⟩

/-- The runs of the driver alone are runs of the system. -/
theorem State.Reachable.system {allowed : State → FenceDriver.Event → Prop}
    {good : System → System.Event → Prop} {d : State}
    (hgood : ∀ d e, d.Reachable 2 allowed → allowed d e →
      good { System.fresh with driver := d } (.driver e))
    (h : d.Reachable 2 allowed) : System.Reachable 2 good { System.fresh with driver := d } := by
  induction h with
  | start hi => exact .start ⟨hi, rfl, rfl⟩
  | @next d d' e hd hg hstep ih =>
    refine .next ih (hgood d e hd hg) ?_
    exact congrArg (Option.map _) hstep

/-- A fence is emitted, written by the hardware and signaled before the call. -/
theorem waitEmpty_sound_once : ∃ s : System, s.Reachable 2 (fun s e => e.Good s) ∧
    s.waiters 0 = ⟨.ret 0, 1⟩ ∧ 1 ≤ s.driver.written := by
  obtain ⟨d, hd, hidle, hseq, hemitted, hfences⟩ : ∃ d, FenceDriver.fresh.exec once = some d ∧
      d.emit = .idle ∧ d.syncSeq = 1 ∧ d.emitted = 1 ∧ d.fences (d.slot 1) = none :=
    ⟨_, rfl, rfl, rfl, rfl, rfl⟩
  have hdriver : d.Reachable 2 fun s e => e.NotAround s :=
    State.Reachable.exec (by decide) (.start rfl) hd
  have hreach : System.Reachable 2 (fun s e => e.Good s) { System.fresh with driver := d } :=
    hdriver.system fun d e hd hg => ⟨hg, (hd.inv (by decide)).storesPassed e⟩
  -- the call reads the number, and finds the slot empty
  obtain ⟨s₁, hs₁, s₂, hs₂, hw₂⟩ : ∃ s₁,
      System.step { System.fresh with driver := d } (.waitBegin 0) = some s₁ ∧
      ∃ s₂, s₁.step (.waitStep 0 true) = some s₂ ∧ s₂.waiters 0 = ⟨.ret 0, 1⟩ := by
    simp [System.step, System.waitBegin, System.waitStep, System.setWaiter, System.fresh, Waiter.next,
      hidle, hseq, hemitted, hfences]
  have hgood : System.Event.Good { System.fresh with driver := d } (.waitBegin 0) := by
    right
    exact ⟨by rw [hseq]; decide, rfl⟩
  have h₁ : s₁.Reachable 2 fun s e => e.Good s := .next hreach hgood hs₁
  have h₂ : s₂.Reachable 2 fun s e => e.Good s := .next h₁ (e := .waitStep 0 true) trivial hs₂
  have hsound := waitEmpty_sound 2 (by decide) h₂ 0 (by rw [hw₂])
  rw [hw₂] at hsound
  exact ⟨s₂, h₂, hw₂, hsound⟩

/-- After `2 ^ 32` fences the number is zero again, and the last fence is not waited for. -/
private theorem wrapped_runs : ∃ s : System, s.Reachable 2 (fun _ e => ∀ out, e ≠ .emitPolling out) ∧
    s.waiters 0 = ⟨.ret 0, 2 ^ 32⟩ ∧ s.driver.written = 2 ^ 32 - 1 := by
  obtain ⟨n, hn⟩ : ∃ n, n + 1 = 2 ^ 32 - 1 := ⟨2 ^ 32 - 2, by omega⟩
  obtain ⟨d, h, hnone, hclaimed, hemitted⟩ := exists_stalled n
  rw [hn] at hclaimed hemitted
  have hwritten : d.written = 2 ^ 32 - 1 := by
    have h₁ := h.inv.claimed_le
    have h₂ := h.inv.written_le.trans h.inv.committed_le
    simp only [State.stored, h.emit] at h₂
    omega
  have hseq : d.syncSeq + 1 = 0 := by
    rw [h.inv.syncSeq, hemitted]
    rfl
  obtain ⟨d', h', hidle, hseq', hemitted', hwritten'⟩ : ∃ d', Stalled d' ∧ d'.emit = .idle ∧
      d'.syncSeq = 0 ∧ d'.emitted = 2 ^ 32 ∧ d'.written = 2 ^ 32 - 1 :=
    ⟨_, h.emitCommit hnone, rfl, hseq, congrArg (· + 1) hemitted, hwritten⟩
  have hreach : System.Reachable 2 (fun _ e => ∀ out, e ≠ .emitPolling out)
      { System.fresh with driver := d' } := h'.reach.system fun _ _ _ _ _ heq => by cases heq
  obtain ⟨s, hs, hw, hd⟩ : ∃ s,
      System.step { System.fresh with driver := d' } (.waitBegin 0) = some s ∧
      s.waiters 0 = ⟨.ret 0, 2 ^ 32⟩ ∧ s.driver = d' := by
    simp [System.step, System.waitBegin, System.setWaiter, System.fresh, hidle, hseq', hemitted']
  refine ⟨s, .next hreach (e := .waitBegin 0) (fun _ heq => by cases heq) hs, hw, ?_⟩
  rw [hd, hwritten']

/-- A fence that is only polled for has an empty slot. -/
private theorem polled_runs : ∃ s : System, s.Reachable 2 (fun _ _ => True) ∧
    s.waiters 0 = ⟨.ret 0, 1⟩ ∧ s.driver.written = 0 := by
  obtain ⟨s, hs, hw, hd⟩ : ∃ s,
      [System.Event.emitPolling true, .waitBegin 0, .waitStep 0 true].foldlM System.step
        System.fresh = some s ∧ s.waiters 0 = ⟨.ret 0, 1⟩ ∧ s.driver.written = 0 :=
    ⟨_, rfl, rfl, rfl⟩
  have hfresh : System.fresh.Reachable 2 fun _ _ => True := .start ⟨rfl, rfl, rfl⟩
  exact ⟨s, hfresh.foldlM (fun _ _ _ => trivial) hs, hw, hd⟩

/-- A ring is taken for empty while the hardware is still before its last fence: when the numbers
have wrapped to zero, and when the last fence is only polled for. -/
theorem waitEmpty_early :
    (∃ s : System, s.Reachable 2 (fun _ e => ∀ out, e ≠ .emitPolling out) ∧
      s.waiters 0 = ⟨.ret 0, 2 ^ 32⟩ ∧ s.driver.written = 2 ^ 32 - 1) ∧
    ∃ s : System, s.Reachable 2 (fun _ _ => True) ∧ s.waiters 0 = ⟨.ret 0, 1⟩ ∧
      s.driver.written = 0 :=
  ⟨wrapped_runs, polled_runs⟩

end Runs

end Gsgpu.FenceDriver
