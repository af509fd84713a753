import Gsgpu.Fences.Driver
import Mathlib.Data.Nat.ModEq

/-! The invariant of the fence driver. As long as `last_seq` does not go around between the two
accesses of a run, the numbers claimed by the runs are disjoint and never ahead of the hardware,
and a number that is not yet cleared keeps its slot: the numbers that share a slot are a whole
array apart, and the later one is emitted only into a slot that the earlier one has left. -/
namespace Gsgpu.FenceDriver

namespace State

/-- The array has a slot for every masked number, and wraps with the sequence numbers. -/
structure Sized (numFences : ℕ) (numFencesMask : UInt32) : Prop where
  pos : 0 < numFences
  lt : numFences < 2 ^ 32
  dvd : numFences ∣ 2 ^ 32
  mask : ∀ x : UInt32, (x &&& numFencesMask).toNat = x.toNat % numFences

theorem sized_of_initRing {num : UInt32} {s : State} (h : initRing num true = .ok s)
    (hnum : s.numFences ≠ 0) : Sized s.numFences s.numFencesMask := by
  rw [initRing] at h
  split at h
  · cases h
  · next hpow =>
    obtain rfl := Except.ok.inj h
    replace hnum : (num * 2).toNat ≠ 0 := hnum
    have hlt := num.toNat_lt
    have hmul : (num * 2).toNat = num.toNat * 2 % 2 ^ 32 := by simp [UInt32.toNat_mul]
    have hsub : (num - 1).toNat = num.toNat - 1 := by
      rw [UInt32.toNat_sub]
      simp
      omega
    have hand : num.toNat &&& (num.toNat - 1) = 0 := by
      have := congrArg UInt32.toNat (not_ne_iff.mp hpow)
      rwa [UInt32.toNat_and, hsub] at this
    obtain ⟨m, hm⟩ := (Nat.and_sub_one_eq_zero_iff_isPowerOfTwo (by omega)).mp hand
    have hm32 : m < 32 := (Nat.pow_lt_pow_iff_right (by omega)).mp (hm ▸ hlt)
    -- twice `2 ^ 31` would be no array at all
    have hm31 : m ≠ 31 := by
      rintro rfl
      simp [hmul, hm] at hnum
    have hsize : (num * 2).toNat = 2 ^ (m + 1) := by
      have hpow := Nat.pow_lt_pow_right (show 1 < 2 by omega) (show m + 1 < 32 by omega)
      rw [hmul, hm, ← Nat.pow_succ, Nat.mod_eq_of_lt hpow]
    have hmask : (num * 2 - 1).toNat = 2 ^ (m + 1) - 1 := by
      have := (num * 2).toNat_lt
      have := Nat.two_pow_pos (m + 1)
      rw [UInt32.toNat_sub, hsize]
      simp
      omega
    refine ⟨Nat.pos_of_ne_zero hnum, (num * 2).toNat_lt, ?_, ?_⟩
    · show (num * 2).toNat ∣ 2 ^ 32
      rw [hsize]
      exact Nat.pow_dvd_pow 2 (show m + 1 ≤ 32 by omega)
    · intro x
      show (x &&& (num * 2 - 1)).toNat = x.toNat % (num * 2).toNat
      rw [UInt32.toNat_and, hmask, hsize, Nat.and_two_pow_sub_one_eq_mod]

variable {s : State}

theorem Sized.ofNat (h : Sized s.numFences s.numFencesMask) (k : ℕ) :
    (UInt32.ofNat k &&& s.numFencesMask).toNat = k % s.numFences := by
  rw [h.mask, UInt32.toNat_ofNat', Nat.mod_mod_of_dvd _ h.dvd]

end State

/-- Distinct numbers less than the size apart are in distinct slots. -/
theorem eq_of_mod_eq {n a b : ℕ} (hle : a ≤ b) (hlt : b < a + n) (h : a % n = b % n) : a = b := by
  obtain ⟨c, hc⟩ := (Nat.modEq_iff_dvd' hle).mp h
  rcases Nat.eq_zero_or_pos c with rfl | hpos
  · omega
  · have := Nat.le_mul_of_pos_right n hpos
    omega

/-- The numbers a run has claimed and not yet taken from their slots. -/
def Run.Pending (r : Run) (k : ℕ) : Prop :=
  match r.pc with
  | .load _ _ => r.pos < k ∧ k ≤ r.seen
  | .clear _ _ _ => r.pos ≤ k ∧ k ≤ r.seen
  | .signal _ _ _ => r.pos < k ∧ k ≤ r.seen
  | _ => False

/-- The fence that a run has taken from its slot and is about to signal. -/
def Run.InHand (r : Run) (k : ℕ) : Prop :=
  match r.pc with
  | .signal _ _ fence => fence = k
  | _ => False

/-- The compare-and-swap of the run has succeeded. -/
def Run.Passed (r : Run) : Prop :=
  match r.pc with
  | .load _ _ | .clear _ _ _ | .signal _ _ _ | .done => True
  | _ => False

/-- A run that walks over slots is at the one of `pos` and stops at the one of `seen`. -/
structure Walks (size pos seen : ℕ) (lastSeq seq : UInt32) : Prop where
  last : lastSeq.toNat = pos % size
  stop : seq.toNat = seen % size
  le : pos ≤ seen

/-- A run that is not at its last number has more to do. -/
theorem Walks.pos_lt {size pos seen : ℕ} {lastSeq seq : UInt32} (h : Walks size pos seen lastSeq seq)
    (hne : lastSeq ≠ seq) : pos < seen := by
  refine lt_of_le_of_ne h.le fun heq => hne ?_
  rw [← UInt32.toNat_inj, h.last, h.stop, heq]

/-- The index of the slot after. -/
theorem Walks.succ {size pos seen : ℕ} {lastSeq seq mask : UInt32}
    (h : Walks size pos seen lastSeq seq) (hsized : State.Sized size mask) :
    ((lastSeq + 1) &&& mask).toNat = (pos + 1) % size := by
  have hadd : (lastSeq + 1).toNat = (lastSeq.toNat + 1) % 2 ^ 32 := by simp [UInt32.toNat_add]
  rw [hsized.mask, hadd, Nat.mod_mod_of_dvd _ hsized.dvd, h.last, Nat.mod_add_mod]

/-- The loop goes on exactly as long as there are numbers left. -/
theorem Walks.test {size pos seen : ℕ} {lastSeq seq : UInt32} (h : Walks size pos seen lastSeq seq)
    (hnear : seen < pos + size) : lastSeq ≠ seq ↔ pos < seen := by
  constructor
  · exact h.pos_lt
  · rintro hlt rfl
    exact hlt.ne (eq_of_mod_eq h.le hnear (h.last.symm.trans h.stop))

/-- What the locals of a run stand for. -/
def Run.Local (s : State) (r : Run) : Prop :=
  match r.pc with
  | .start => True
  | .readHw lastSeq => lastSeq = UInt32.ofNat r.readAt ∧ r.readAt ≤ s.claimed
  | .xchg lastSeq seq => lastSeq = UInt32.ofNat r.readAt ∧ seq = UInt32.ofNat r.seen ∧
      r.readAt ≤ s.claimed ∧ r.readAt ≤ r.seen ∧ r.seen ≤ s.written ∧
      r.seen ≤ s.claimed + s.numFences
  | .load lastSeq seq => Walks s.numFences r.pos r.seen lastSeq seq ∧ r.pos < r.seen ∧
      r.seen ≤ r.pos + s.numFences ∧ r.seen ≤ s.claimed
  | .clear lastSeq seq fence => Walks s.numFences r.pos r.seen lastSeq seq ∧ 0 < r.pos ∧
      r.seen < r.pos + s.numFences ∧ fence = some r.pos ∧ r.seen ≤ s.claimed
  | .signal lastSeq seq fence => Walks s.numFences r.pos r.seen lastSeq seq ∧ 0 < r.pos ∧
      r.seen < r.pos + s.numFences ∧ fence = r.pos ∧ r.seen ≤ s.claimed
  | .done => r.seen ≤ s.claimed

/-- The fences that are in a slot or have been. -/
def State.stored (s : State) : ℕ :=
  match s.emit with
  | .idle => s.emitted
  | _ => s.emitted - 1

/-- What a call of `gsgpu_fence_emit` knows about its slot. -/
def State.Emitting (s : State) : Prop :=
  match s.emit with
  | .idle => True
  | .look seq fence | .get seq fence => seq = UInt32.ofNat fence ∧ fence = s.stored + 1
  | .wait seq fence old => seq = UInt32.ofNat fence ∧ fence = s.stored + 1 ∧
      (s.fences (fence % s.numFences) = none ∨ s.fences (fence % s.numFences) = some old)
  | .assign seq fence => seq = UInt32.ofNat fence ∧ fence = s.stored + 1 ∧
      s.fences (fence % s.numFences) = none

/-- What holds of a fence driver in every state. -/
structure State.Inv (s : State) : Prop where
  sized : Sized s.numFences s.numFencesMask
  syncSeq : s.syncSeq = UInt32.ofNat s.emitted
  lastSeq : s.lastSeq = UInt32.ofNat s.claimed
  hw : s.hw = UInt32.ofNat s.written
  claimed_le : s.claimed ≤ s.written
  written_le : s.written ≤ s.committed
  committed_le : s.committed ≤ s.stored
  emitted : s.emit = .idle ∨ s.emitted = s.stored + 1
  emitting : s.Emitting
  bug : s.bug = false
  unclaimed : ∀ k, s.claimed < k → k ≤ s.stored → s.fences (k % s.numFences) = some k
  slot : ∀ j k, j < s.numFences → s.fences j = some k → k % s.numFences = j ∧ k ≤ s.stored ∧
    s.signaled k = false
  signaled : ∀ k, s.signaled k = true → k ≤ s.claimed
  locals : ∀ i, (s.runs i).Local s
  pending : ∀ i k, (s.runs i).Pending k → s.fences (k % s.numFences) = some k ∧ s.owner k = i
  inHand : ∀ i k, (s.runs i).InHand k → s.fences (k % s.numFences) ≠ some k ∧
    s.signaled k = false ∧ s.owner k = i ∧ k ≤ s.claimed
  covered : ∀ k, 0 < k → k ≤ s.claimed → s.owner k < s.started ∧ (s.signaled k = true ∨
    (s.runs (s.owner k)).Pending k ∨ (s.runs (s.owner k)).InHand k)
  fresh : ∀ i, s.started ≤ i → (s.runs i).pc = .start
  passed : ∀ i, (s.runs i).Passed → ∀ k, 0 < k → k ≤ (s.runs i).seen → s.owner k < (s.runs i).horizon

theorem Run.Local.mono {s s' : State} {r : Run} (h : r.Local s)
    (hsize : s'.numFences = s.numFences) (hclaimed : s.claimed ≤ s'.claimed)
    (hwritten : s.written ≤ s'.written) : r.Local s' := by
  cases hpc : r.pc with
  | start => simp only [Run.Local, hpc]
  | readHw lastSeq =>
    simp only [Run.Local, hpc] at h ⊢
    exact ⟨h.1, h.2.trans hclaimed⟩
  | xchg lastSeq seq =>
    simp only [Run.Local, hpc, hsize] at h ⊢
    obtain ⟨hl, hq, hat, hle, hw, hn⟩ := h
    exact ⟨hl, hq, hat.trans hclaimed, hle, hw.trans hwritten, by omega⟩
  | load lastSeq seq =>
    simp only [Run.Local, hpc, hsize] at h ⊢
    exact ⟨h.1, h.2.1, h.2.2.1, h.2.2.2.trans hclaimed⟩
  | clear lastSeq seq fence =>
    simp only [Run.Local, hpc, hsize] at h ⊢
    exact ⟨h.1, h.2.1, h.2.2.1, h.2.2.2.1, h.2.2.2.2.trans hclaimed⟩
  | signal lastSeq seq fence =>
    simp only [Run.Local, hpc, hsize] at h ⊢
    exact ⟨h.1, h.2.1, h.2.2.1, h.2.2.2.1, h.2.2.2.2.trans hclaimed⟩
  | done =>
    simp only [Run.Local, hpc] at h ⊢
    exact h.trans hclaimed

namespace State

variable {s : State} {i : ℕ} {r : Run}

theorem forall_setRun {P : ℕ → Run → Prop} (hi : P i r) (h : ∀ j, j ≠ i → P j (s.runs j)) (j : ℕ) :
    P j ((s.setRun i r).runs j) := by
  by_cases hj : j = i
  · subst hj
    simpa only [setRun, Function.update_self] using hi
  · simpa only [setRun, Function.update_of_ne hj] using h j hj

/-- The unclaimed fences fit into the array. -/
theorem Inv.distance (h : s.Inv) : s.stored ≤ s.claimed + s.numFences := by
  by_contra hgt
  have hpos := h.sized.pos
  have h₁ := h.unclaimed (s.claimed + 1) (by omega) (by omega)
  have h₂ := h.unclaimed (s.claimed + 1 + s.numFences) (by omega) (by omega)
  rw [Nat.add_mod_right, h₁, Option.some.injEq] at h₂
  omega

/-- A step of a run that only changes its locals. -/
theorem Inv.setRun (h : s.Inv) (hlocal : r.Local s) (hfresh : s.started ≤ i → r.pc = .start)
    (hpend : ∀ k, r.Pending k ↔ (s.runs i).Pending k)
    (hhand : ∀ k, r.InHand k ↔ (s.runs i).InHand k)
    (hpassed : r.Passed → ∀ k, 0 < k → k ≤ r.seen → s.owner k < r.horizon) :
    (s.setRun i r).Inv := by
  have hpending := forall_setRun (s := s) (i := i) (r := r)
    (P := fun j r => ∀ k, r.Pending k ↔ (s.runs j).Pending k) hpend fun _ _ _ => Iff.rfl
  have hinHand := forall_setRun (s := s) (i := i) (r := r)
    (P := fun j r => ∀ k, r.InHand k ↔ (s.runs j).InHand k) hhand fun _ _ _ => Iff.rfl
  refine { h with locals := ?_, pending := ?_, inHand := ?_, covered := ?_, fresh := ?_, passed := ?_ }
  · exact forall_setRun (P := fun _ r => r.Local s) hlocal fun j _ => h.locals j
  · intro j k hk
    exact h.pending j k ((hpending j k).mp hk)
  · intro j k hk
    exact h.inHand j k ((hinHand j k).mp hk)
  · intro k hpos hk
    obtain ⟨hlt, hcov⟩ := h.covered k hpos hk
    refine ⟨hlt, hcov.imp id (Or.imp ?_ ?_)⟩
    · exact (hpending _ k).mpr
    · exact (hinHand _ k).mpr
  · exact forall_setRun (P := fun j r => s.started ≤ j → r.pc = .start) hfresh fun j _ => h.fresh j
  · exact forall_setRun
      (P := fun _ r => r.Passed → ∀ k, 0 < k → k ≤ r.seen → s.owner k < r.horizon)
      hpassed fun j _ => h.passed j

theorem Inv.processBegin (h : s.Inv) : s.processBegin.Inv := by
  have hfresh := h.fresh s.started le_rfl
  have h' : (s.setRun s.started ⟨.start, 0, 0, 0, 0⟩).Inv :=
    h.setRun trivial (fun _ => rfl) (fun k => by simp [Run.Pending, hfresh])
      (fun k => by simp [Run.InHand, hfresh]) (fun hp => hp.elim)
  refine { h' with covered := ?_, fresh := ?_ }
  · intro k hpos hk
    obtain ⟨hlt, hcov⟩ := h'.covered k hpos hk
    exact ⟨hlt.trans (Nat.lt_succ_self _), hcov⟩
  · intro i hi
    exact h'.fresh i ((Nat.le_succ _).trans hi)

/-- What a run has seen when its compare-and-swap succeeds is claimed, by it or by others. -/
theorem Inv.passed_le (h : s.Inv) (hp : (s.runs i).Passed) : (s.runs i).seen ≤ s.claimed := by
  have hlocal := h.locals i
  cases hpc : (s.runs i).pc with
  | load lastSeq seq =>
    simp only [Run.Local, hpc] at hlocal
    exact hlocal.2.2.2
  | clear lastSeq seq fence =>
    simp only [Run.Local, hpc] at hlocal
    exact hlocal.2.2.2.2
  | signal lastSeq seq fence =>
    simp only [Run.Local, hpc] at hlocal
    exact hlocal.2.2.2.2
  | done => simpa only [Run.Local, hpc] using hlocal
  | _ => simp [Run.Passed, hpc] at hp

theorem Inv.pending_le (h : s.Inv) {k : ℕ} (hk : (s.runs i).Pending k) : k ≤ s.claimed := by
  have hle : (s.runs i).Passed ∧ k ≤ (s.runs i).seen := by
    cases hpc : (s.runs i).pc <;> simp_all [Run.Pending, Run.Passed]
  exact hle.2.trans (h.passed_le hle.1)

/-- A successful compare-and-swap: the run claims the numbers up to the one it has seen. -/
theorem Inv.claim (h : s.Inv) (hi : i < s.started) (hnone : ∀ k, ¬ (s.runs i).Pending k)
    (hhand : ∀ k, ¬ (s.runs i).InHand k) (hlt : s.claimed < (s.runs i).seen)
    (hw : (s.runs i).seen ≤ s.written) {seq last' seq' : UInt32}
    (hseq : seq = UInt32.ofNat (s.runs i).seen)
    (hlast' : last'.toNat = s.claimed % s.numFences)
    (hseq' : seq'.toNat = (s.runs i).seen % s.numFences) :
    Inv { s.setRun i { s.runs i with
        pc := .load last' seq'
        pos := s.claimed
        horizon := s.started } with
      lastSeq := seq
      claimed := (s.runs i).seen
      owner := fun k => if s.claimed < k ∧ k ≤ (s.runs i).seen then i else s.owner k } := by
  have hnear : (s.runs i).seen ≤ s.claimed + s.numFences :=
    hw.trans (h.written_le.trans (h.committed_le.trans h.distance))
  have hold : ∀ k, k ≤ s.claimed →
      (if s.claimed < k ∧ k ≤ (s.runs i).seen then i else s.owner k) = s.owner k := by
    intro k hk
    rw [if_neg]
    omega
  have hnew : ∀ k, s.claimed < k → k ≤ (s.runs i).seen →
      (if s.claimed < k ∧ k ≤ (s.runs i).seen then i else s.owner k) = i :=
    fun k hk hk' => if_pos ⟨hk, hk'⟩
  refine { h with
    lastSeq := hseq, claimed_le := hw, unclaimed := ?_, signaled := ?_, locals := ?_,
    pending := ?_, inHand := ?_, covered := ?_, fresh := ?_, passed := ?_ }
  · intro k hk
    exact h.unclaimed k (hlt.trans hk)
  · intro k hk
    exact (h.signaled k hk).trans hlt.le
  · refine forall_setRun (P := fun _ r => Run.Local _ r) ?_ fun j _ => (h.locals j).mono rfl hlt.le le_rfl
    exact ⟨⟨hlast', hseq', hlt.le⟩, hlt, hnear, le_rfl⟩
  · refine forall_setRun (P := fun j r => ∀ k, r.Pending k → s.fences (k % s.numFences) = some k ∧
      (if s.claimed < k ∧ k ≤ (s.runs i).seen then i else s.owner k) = j) ?_ ?_
    · intro k hk
      have hk : s.claimed < k ∧ k ≤ (s.runs i).seen := hk
      refine ⟨h.unclaimed k hk.1 ?_, hnew k hk.1 hk.2⟩
      exact hk.2.trans (hw.trans (h.written_le.trans h.committed_le))
    · intro j _ k hk
      rw [hold k (h.pending_le hk)]
      exact h.pending j k hk
  · refine forall_setRun (P := fun j r => ∀ k, r.InHand k → s.fences (k % s.numFences) ≠ some k ∧
      s.signaled k = false ∧ (if s.claimed < k ∧ k ≤ (s.runs i).seen then i else s.owner k) = j ∧
      k ≤ (s.runs i).seen) ?_ ?_
    · intro k hk
      exact hk.elim
    · intro j _ k hk
      obtain ⟨hf, hs, ho, hle⟩ := h.inHand j k hk
      rw [hold k hle]
      exact ⟨hf, hs, ho, hle.trans hlt.le⟩
  · intro k hpos hk
    dsimp only
    by_cases hle : k ≤ s.claimed
    · rw [hold k hle]
      obtain ⟨ho, hcov⟩ := h.covered k hpos hle
      refine ⟨ho, ?_⟩
      by_cases hown : s.owner k = i
      · rw [hown] at hcov
        rcases hcov with hs | hp | hh
        · exact .inl hs
        · exact (hnone k hp).elim
        · exact (hhand k hh).elim
      · simpa only [State.setRun, Function.update_of_ne hown] using hcov
    · rw [hnew k (not_le.mp hle) hk]
      refine ⟨hi, .inr (.inl ?_)⟩
      simp only [State.setRun, Function.update_self]
      exact ⟨not_le.mp hle, hk⟩
  · exact forall_setRun (P := fun j r => s.started ≤ j → r.pc = .start)
      (fun hge => absurd hi (not_lt.mpr hge)) fun j _ => h.fresh j
  · refine forall_setRun (P := fun j r => r.Passed → ∀ k, 0 < k → k ≤ r.seen →
      (if s.claimed < k ∧ k ≤ (s.runs i).seen then i else s.owner k) < r.horizon) ?_ ?_
    · intro _ k hpos hk
      by_cases hle : k ≤ s.claimed
      · rw [hold k hle]
        exact (h.covered k hpos hle).1
      · rw [hnew k (not_le.mp hle) hk]
        exact hi
    · intro j _ hp k hpos hk
      rw [hold k (hk.trans (h.passed_le hp))]
      exact h.passed j hp k hpos hk

/-- The compare-and-swap. The values it was made with stand for the numbers now only if nothing
was claimed in between. -/
theorem Inv.cmpxchg (h : s.Inv) (hi : i < s.started) {lastSeq seq : UInt32}
    (hpc : (s.runs i).pc = .xchg lastSeq seq)
    (hgood : s.lastSeq = lastSeq → seq ≠ lastSeq → s.claimed = (s.runs i).readAt) :
    (s.cmpxchg i lastSeq seq).Inv := by
  have hlocal := h.locals i
  simp only [Run.Local, hpc] at hlocal
  obtain ⟨hl, hq, -, hle, hw, hnear⟩ := hlocal
  have hnone : ∀ k, ¬ (s.runs i).Pending k := fun k => by simp [Run.Pending, hpc]
  have hhand : ∀ k, ¬ (s.runs i).InHand k := fun k => by simp [Run.InHand, hpc]
  have hsize := h.sized.lt
  rw [State.cmpxchg]
  split
  · exact h.setRun trivial (fun _ => rfl) (fun k => by simp [Run.Pending, hpc])
      (fun k => by simp [Run.InHand, hpc]) (fun hp => hp.elim)
  · next heq =>
    have hlast := not_ne_iff.mp heq
    split
    · next hsame =>
      -- nothing new: all that was seen has been claimed already
      have hseen : (s.runs i).seen ≤ s.claimed := by
        have hmod : UInt32.ofNat (s.runs i).seen = UInt32.ofNat s.claimed := by
          rw [← hq, hsame, ← hlast, h.lastSeq]
        have := congrArg UInt32.toNat hmod
        rw [UInt32.toNat_ofNat', UInt32.toNat_ofNat'] at this
        by_contra hgt
        have := eq_of_mod_eq (not_le.mp hgt).le (by omega) this.symm
        omega
      refine h.setRun hseen (fun hge => absurd hi (not_lt.mpr hge))
        (fun k => by simp [Run.Pending, hpc]) (fun k => by simp [Run.InHand, hpc]) ?_
      intro _ k hpos hk
      exact (h.covered k hpos (hk.trans hseen)).1
    · next hne =>
      have hat := hgood hlast hne
      have hlt : s.claimed < (s.runs i).seen := by
        refine lt_of_le_of_ne (hat ▸ hle) fun heq => hne ?_
        rw [hq, hl, ← hat, heq]
      have hsub : s.claimed + (seq - lastSeq).toNat = (s.runs i).seen := by
        rw [hq, hl, ← hat, UInt32.toNat_sub, UInt32.toNat_ofNat', UInt32.toNat_ofNat']
        omega
      simp only [hsub]
      refine h.claim hi hnone hhand hlt hw hq ?_ ?_
      · rw [hl, ← hat]
        exact h.sized.ofNat _
      · rw [hq]
        exact h.sized.ofNat _

/-- A slot that loses its fence does not disturb the emitter. -/
theorem Emitting.mono {s' : State} (h : s.Emitting) (hemit : s'.emit = s.emit)
    (hemitted : s'.emitted = s.emitted) (hsize : s'.numFences = s.numFences)
    (hnone : ∀ j, s.fences j = none → s'.fences j = none)
    (hsub : ∀ j k, s'.fences j = some k → s.fences j = some k) : s'.Emitting := by
  have hstored : s'.stored = s.stored := by rw [stored, stored, hemit, hemitted]
  cases he : s.emit with
  | idle => simp only [Emitting, hemit, he]
  | look seq fence => simpa only [Emitting, hemit, he, hstored] using h
  | get seq fence => simpa only [Emitting, hemit, he, hstored] using h
  | wait seq fence old =>
    simp only [Emitting, hemit, he, hstored, hsize] at h ⊢
    obtain ⟨hs, hf, hslot⟩ := h
    refine ⟨hs, hf, ?_⟩
    cases hj : s'.fences (fence % s.numFences) with
    | none => exact .inl rfl
    | some k =>
      rw [hsub _ _ hj] at hslot
      exact .inr (hslot.resolve_left (by simp))
  | assign seq fence =>
    simp only [Emitting, hemit, he, hstored, hsize] at h ⊢
    exact ⟨h.1, h.2.1, hnone _ h.2.2⟩

/-- Taking a fence from its slot. -/
theorem Inv.clear (h : s.Inv) {lastSeq seq : UInt32} {fence : Option ℕ}
    (hpc : (s.runs i).pc = .clear lastSeq seq fence) :
    fence = some (s.runs i).pos ∧ State.Inv ({ s with
      fences := Function.update s.fences lastSeq.toNat none }.setRun i
        { s.runs i with pc := .signal lastSeq seq (s.runs i).pos }) := by
  have hlocal := h.locals i
  simp only [Run.Local, hpc] at hlocal
  obtain ⟨hwalk, hpos, hnear, rfl, hle⟩ := hlocal
  refine ⟨rfl, ?_⟩
  have hpend : (s.runs i).Pending (s.runs i).pos := by
    simpa [Run.Pending, hpc] using hwalk.le
  obtain ⟨hslot, hown⟩ := h.pending i _ hpend
  have hunsig := (h.slot _ _ (Nat.mod_lt _ h.sized.pos) hslot).2.2
  -- a number that keeps its slot is another one
  have hkeep : ∀ k, k ≠ (s.runs i).pos → s.fences (k % s.numFences) = some k →
      Function.update s.fences lastSeq.toNat none (k % s.numFences) = some k := by
    intro k hne hk
    rw [Function.update_of_ne, hk]
    intro heq
    rw [heq, hwalk.last, hslot] at hk
    exact hne (Option.some.inj hk).symm
  have hsub : ∀ j k, Function.update s.fences lastSeq.toNat none j = some k →
      s.fences j = some k := by
    intro j k hk
    by_cases hj : j = lastSeq.toNat
    · subst hj
      simp at hk
    · rwa [Function.update_of_ne hj] at hk
  have hnone : ∀ j, s.fences j = none → Function.update s.fences lastSeq.toNat none j = none := by
    intro j hj
    cases hk : Function.update s.fences lastSeq.toNat none j with
    | none => rfl
    | some k => rw [hsub j k hk] at hj; cases hj
  refine { h with
    emitting := ?_, unclaimed := ?_, slot := ?_, locals := ?_, pending := ?_, inHand := ?_,
    covered := ?_, fresh := ?_, passed := ?_ }
  · exact h.emitting.mono rfl rfl rfl hnone hsub
  · intro k hk hk'
    exact hkeep k ((hwalk.le.trans hle).trans_lt hk).ne' (h.unclaimed k hk hk')
  · intro j k hj hk
    exact h.slot j k hj (hsub j k hk)
  · refine forall_setRun (P := fun _ r => Run.Local _ r) ?_ fun j _ => (h.locals j).mono rfl le_rfl le_rfl
    exact ⟨hwalk, hpos, hnear, rfl, hle⟩
  · refine forall_setRun (P := fun j r => ∀ k, r.Pending k →
      Function.update s.fences lastSeq.toNat none (k % s.numFences) = some k ∧ s.owner k = j) ?_ ?_
    · intro k hk
      have hk : (s.runs i).pos < k ∧ k ≤ (s.runs i).seen := hk
      have hp : (s.runs i).Pending k := by simpa [Run.Pending, hpc] using ⟨hk.1.le, hk.2⟩
      exact ⟨hkeep k hk.1.ne' (h.pending i k hp).1, (h.pending i k hp).2⟩
    · intro j hj k hk
      obtain ⟨hf, ho⟩ := h.pending j k hk
      refine ⟨hkeep k ?_ hf, ho⟩
      rintro rfl
      exact hj (ho.symm.trans hown)
  · refine forall_setRun (P := fun j r => ∀ k, r.InHand k →
      Function.update s.fences lastSeq.toNat none (k % s.numFences) ≠ some k ∧
        s.signaled k = false ∧ s.owner k = j ∧ k ≤ s.claimed) ?_ ?_
    · intro k hk
      obtain rfl : (s.runs i).pos = k := hk
      refine ⟨?_, hunsig, hown, hwalk.le.trans hle⟩
      rw [← hwalk.last, Function.update_self]
      simp
    · intro j _ k hk
      obtain ⟨hf, hrest⟩ := h.inHand j k hk
      exact ⟨fun heq => hf (hsub _ _ heq), hrest⟩
  · intro k hpos hk
    obtain ⟨ho, hcov⟩ := h.covered k hpos hk
    refine ⟨ho, ?_⟩
    by_cases hi : s.owner k = i
    · simp only [State.setRun, hi, Function.update_self] at hcov ⊢
      rcases hcov with hs | hp | hh
      · exact .inl hs
      · right
        have hp : (s.runs i).pos ≤ k ∧ k ≤ (s.runs i).seen := by
          simpa [Run.Pending, hpc] using hp
        rcases hp.1.eq_or_lt with heq | hlt
        · exact .inr heq
        · exact .inl ⟨hlt, hp.2⟩
      · simp [Run.InHand, hpc] at hh
    · simpa only [State.setRun, Function.update_of_ne hi] using hcov
  · refine forall_setRun (P := fun j r => s.started ≤ j → r.pc = .start) ?_ fun j _ => h.fresh j
    intro hge
    rw [h.fresh i hge] at hpc
    cases hpc
  · refine forall_setRun (P := fun _ r => r.Passed → ∀ k, 0 < k → k ≤ r.seen →
      s.owner k < r.horizon) ?_ fun j _ => h.passed j
    intro _ k hpos hk
    exact h.passed i (by simp [Run.Passed, hpc]) k hpos hk

theorem Inv.signal (h : s.Inv) {lastSeq seq : UInt32} {fence : ℕ}
    (hpc : (s.runs i).pc = .signal lastSeq seq fence) :
    Inv { s.setRun i { s.runs i with pc := .test lastSeq seq } with
      signaled := Function.update s.signaled fence true
      bug := s.bug || s.signaled fence } := by
  have hlocal := h.locals i
  simp only [Run.Local, hpc] at hlocal
  obtain ⟨hwalk, hpos, hnear, rfl, hle⟩ := hlocal
  have hhand : (s.runs i).InHand (s.runs i).pos := by simp [Run.InHand, hpc]
  obtain ⟨hslot, hunsig, hown, hclaimed⟩ := h.inHand i _ hhand
  have htest := hwalk.test hnear
  have hpend : ∀ k, Run.Pending { s.runs i with pc := .test lastSeq seq } k ↔
      (s.runs i).Pending k := by
    intro k
    by_cases hne : lastSeq ≠ seq
    · simp [Run.Pending, Pc.test, hne, hpc]
    · have : ¬ ((s.runs i).pos < k ∧ k ≤ (s.runs i).seen) := by
        rw [htest] at hne
        omega
      simp [Run.Pending, Pc.test, hne, hpc, this]
  have hnothing : ∀ k, ¬ Run.InHand { s.runs i with pc := .test lastSeq seq } k := by
    intro k
    by_cases hne : lastSeq ≠ seq <;> simp [Run.InHand, Pc.test, hne]
  have hother : ∀ k, k ≠ (s.runs i).pos →
      Function.update s.signaled (s.runs i).pos true k = s.signaled k :=
    fun k hne => Function.update_of_ne hne _ _
  refine { h with
    bug := ?_, slot := ?_, signaled := ?_, locals := ?_, pending := ?_, inHand := ?_,
    covered := ?_, fresh := ?_, passed := ?_ }
  · simp only [h.bug, hunsig, Bool.or_self]
  · intro j k hj hk
    obtain ⟨hmod, hst, hs⟩ := h.slot j k hj hk
    refine ⟨hmod, hst, (hother k ?_).trans hs⟩
    rintro rfl
    exact hslot (hmod ▸ hk)
  · intro k hk
    by_cases hne : k = (s.runs i).pos
    · exact hne ▸ hclaimed
    · exact h.signaled k ((hother k hne).symm.trans hk)
  · refine forall_setRun (P := fun _ r => Run.Local _ r) ?_ fun j _ =>
      (h.locals j).mono rfl le_rfl le_rfl
    by_cases hne : lastSeq ≠ seq
    · simp only [Run.Local, Pc.test, hne, ne_eq, not_false_eq_true, if_true]
      exact ⟨hwalk, htest.mp hne, hnear.le, hle⟩
    · simp only [Run.Local, Pc.test, hne, if_false]
      exact hle
  · refine forall_setRun (P := fun j r => ∀ k, r.Pending k →
      s.fences (k % s.numFences) = some k ∧ s.owner k = j) ?_ fun j _ => h.pending j
    intro k hk
    exact h.pending i k ((hpend k).mp hk)
  · refine forall_setRun (P := fun j r => ∀ k, r.InHand k → s.fences (k % s.numFences) ≠ some k ∧
      Function.update s.signaled (s.runs i).pos true k = false ∧ s.owner k = j ∧ k ≤ s.claimed) ?_ ?_
    · intro k hk
      exact (hnothing k hk).elim
    · intro j hj k hk
      obtain ⟨hf, hs, ho, hc⟩ := h.inHand j k hk
      refine ⟨hf, (hother k ?_).trans hs, ho, hc⟩
      rintro rfl
      exact hj (ho.symm.trans hown)
  · intro k hkpos hk
    obtain ⟨ho, hcov⟩ := h.covered k hkpos hk
    refine ⟨ho, ?_⟩
    by_cases hne : k = (s.runs i).pos
    · left
      rw [hne]
      exact Function.update_self _ _ _
    · dsimp only
      rw [hother k hne]
      by_cases hi : s.owner k = i
      · simp only [State.setRun, hi, Function.update_self] at hcov ⊢
        rcases hcov with hs | hp | hh
        · exact .inl hs
        · exact .inr (.inl ((hpend k).mpr hp))
        · have : (s.runs i).pos = k := by simpa [Run.InHand, hpc] using hh
          exact (hne this.symm).elim
      · simpa only [State.setRun, Function.update_of_ne hi] using hcov
  · refine forall_setRun (P := fun j r => s.started ≤ j → r.pc = .start) ?_ fun j _ => h.fresh j
    intro hge
    rw [h.fresh i hge] at hpc
    cases hpc
  · refine forall_setRun (P := fun _ r => r.Passed → ∀ k, 0 < k → k ≤ r.seen →
      s.owner k < r.horizon) ?_ fun j _ => h.passed j
    intro _ k hpos hk
    exact h.passed i (by simp [Run.Passed, hpc]) k hpos hk

/-- Loading the next slot of the range finds the fence of the next number. -/
theorem Inv.load (h : s.Inv) {lastSeq seq : UInt32} (hpc : (s.runs i).pc = .load lastSeq seq) :
    (s.setRun i { s.runs i with
      pc := .clear ((lastSeq + 1) &&& s.numFencesMask) seq
        (s.fences ((lastSeq + 1) &&& s.numFencesMask).toNat)
      pos := (s.runs i).pos + 1 }).Inv := by
  have hlocal := h.locals i
  simp only [Run.Local, hpc] at hlocal
  obtain ⟨hwalk, hlt, hnear, hle⟩ := hlocal
  have hidx : ((lastSeq + 1) &&& s.numFencesMask).toNat = ((s.runs i).pos + 1) % s.numFences :=
    hwalk.succ h.sized
  have hpend : (s.runs i).Pending ((s.runs i).pos + 1) := by
    simpa [Run.Pending, hpc, Nat.succ_le_iff] using hlt
  refine h.setRun ?_ ?_ ?_ ?_ ?_
  · refine ⟨⟨hidx, hwalk.stop, hlt⟩, Nat.succ_pos _, ?_, ?_, hle⟩
    · dsimp only
      omega
    · rw [hidx]
      exact (h.pending i _ hpend).1
  · intro hge
    rw [h.fresh i hge] at hpc
    cases hpc
  · intro k
    simp only [Run.Pending, hpc]
    exact Iff.rfl
  · intro k
    simp only [Run.InHand, hpc]
  · intro _ k hpos hk
    exact h.passed i (by simp [Run.Passed, hpc]) k hpos hk

theorem Inv.processStep (h : s.Inv) {s' : State} (hgood : Event.NotAround s (.processStep i))
    (hstep : s.processStep i = some s') : s'.Inv := by
  simp only [State.processStep] at hstep
  split at hstep
  · cases hstep
  · next hi =>
    have hi : i < s.started := not_le.mp hi
    have hge : ∀ {p : Prop}, s.started ≤ i → p := fun hge => absurd hi (not_lt.mpr hge)
    cases hpc : (s.runs i).pc with
    | start =>
      simp only [hpc, Option.some.injEq] at hstep
      rw [← hstep]
      exact h.setRun ⟨h.lastSeq, le_rfl⟩ hge (fun k => by simp [Run.Pending, hpc])
        (fun k => by simp [Run.InHand, hpc]) (fun hp => hp.elim)
    | readHw lastSeq =>
      simp only [hpc, Option.some.injEq] at hstep
      rw [← hstep]
      have hlocal := h.locals i
      simp only [Run.Local, hpc] at hlocal
      refine h.setRun ?_ hge (fun k => by simp [Run.Pending, hpc])
        (fun k => by simp [Run.InHand, hpc]) (fun hp => hp.elim)
      exact ⟨hlocal.1, h.hw, hlocal.2, hlocal.2.trans h.claimed_le, le_rfl,
        h.written_le.trans (h.committed_le.trans h.distance)⟩
    | xchg lastSeq seq =>
      simp only [hpc, Option.some.injEq] at hstep
      rw [← hstep]
      exact h.cmpxchg hi hpc (hgood lastSeq seq hpc)
    | load lastSeq seq =>
      simp only [hpc, Option.some.injEq] at hstep
      rw [← hstep]
      exact h.load hpc
    | clear lastSeq seq fence =>
      obtain ⟨rfl, hinv⟩ := h.clear hpc
      simp only [hpc, Option.some.injEq] at hstep
      rw [← hstep]
      exact hinv
    | signal lastSeq seq fence =>
      simp only [hpc, Option.some.injEq] at hstep
      rw [← hstep]
      exact h.signal hpc
    | done =>
      simp only [hpc] at hstep
      cases hstep

/-- A step of the emitter that leaves the slots. -/
theorem Inv.setEmit (h : s.Inv) {emit : Emit} {syncSeq : UInt32} {emitted : ℕ}
    (hsync : syncSeq = UInt32.ofNat emitted)
    (hstored : State.stored { s with emit := emit, emitted := emitted } = s.stored)
    (hemitted : emit = .idle ∨ emitted = s.stored + 1)
    (hemitting : Emitting { s with emit := emit, emitted := emitted }) :
    Inv { s with syncSeq := syncSeq, emit := emit, emitted := emitted } := by
  refine { h with
    syncSeq := hsync, committed_le := ?_, emitted := ?_, emitting := hemitting, unclaimed := ?_,
    slot := ?_ }
  · exact h.committed_le.trans_eq hstored.symm
  · exact hemitted.imp_right fun heq => heq.trans (congrArg (· + 1) hstored.symm)
  · intro k hk hk'
    exact h.unclaimed k hk (hk'.trans_eq hstored)
  · intro j k hj hk
    obtain ⟨hmod, hle, hs⟩ := h.slot j k hj hk
    exact ⟨hmod, hle.trans_eq hstored.symm, hs⟩

theorem Inv.emitBegin (h : s.Inv) {s' : State} {allocOk : Bool}
    (hstep : s.emitBegin allocOk = some s') : s'.Inv := by
  simp only [State.emitBegin] at hstep
  split at hstep
  · next hidle =>
    have hstored : s.stored = s.emitted := by simp [stored, hidle]
    split at hstep
    · obtain rfl := Option.some.inj hstep
      have hseq : s.syncSeq + 1 = UInt32.ofNat (s.emitted + 1) := by
        rw [h.syncSeq, UInt32.ofNat_add]
        rfl
      refine h.setEmit hseq hstored.symm ?_ ?_
      · exact .inr (congrArg (· + 1) hstored.symm)
      · exact ⟨hseq, rfl⟩
    · obtain rfl := Option.some.inj hstep
      exact h
  · cases hstep

/-- The slot the emitter looks at is the one of its fence. -/
theorem Inv.slot_eq (h : s.Inv) {seq : UInt32} {fence : ℕ} (hseq : seq = UInt32.ofNat fence) :
    s.slot seq = fence % s.numFences := by
  rw [State.slot, hseq]
  exact h.sized.ofNat fence

/-- Storing the new fence: the slot is empty. -/
theorem Inv.assign (h : s.Inv) {seq : UInt32} {fence : ℕ} (hemit : s.emit = .assign seq fence) :
    s.fences (s.slot seq) = none ∧ Inv { s with
      fences := Function.update s.fences (s.slot seq) (some fence)
      emit := .idle } := by
  have hemitting := h.emitting
  simp only [Emitting, hemit] at hemitting
  obtain ⟨hseq, hfence, hnone⟩ := hemitting
  have hslot := h.slot_eq hseq
  rw [hslot]
  refine ⟨hnone, ?_⟩
  have hstored : s.emitted = s.stored + 1 := h.emitted.resolve_left (by simp [hemit])
  have hkeep : ∀ j k, s.fences j = some k →
      Function.update s.fences (fence % s.numFences) (some fence) j = some k := by
    intro j k hk
    rw [Function.update_of_ne, hk]
    rintro rfl
    rw [hnone] at hk
    cases hk
  have hother : ∀ j, j ≠ fence % s.numFences →
      Function.update s.fences (fence % s.numFences) (some fence) j = s.fences j :=
    fun j hj => Function.update_of_ne hj _ _
  refine { h with
    committed_le := ?_, emitted := .inl rfl, emitting := trivial, unclaimed := ?_, slot := ?_,
    pending := ?_, inHand := ?_ }
  · show s.committed ≤ s.emitted
    exact h.committed_le.trans (by omega)
  · intro k hk hk'
    have hk' : k ≤ s.stored + 1 := hk'.trans_eq hstored
    rcases hk'.lt_or_eq with hlt | heq
    · exact hkeep _ _ (h.unclaimed k hk (by omega))
    · rw [heq, ← hfence]
      exact Function.update_self _ _ _
  · intro j k hj hk
    dsimp only at hk
    by_cases hjf : j = fence % s.numFences
    · subst hjf
      rw [Function.update_self, Option.some.injEq] at hk
      subst hk
      refine ⟨rfl, (hfence.trans hstored.symm).le, ?_⟩
      cases hs : s.signaled fence with
      | false => rfl
      | true =>
        have := h.signaled fence hs
        have := h.claimed_le.trans (h.written_le.trans h.committed_le)
        omega
    · obtain ⟨hmod, hle, hs⟩ := h.slot j k hj ((hother j hjf).symm.trans hk)
      exact ⟨hmod, hle.trans (show s.stored ≤ s.emitted by omega), hs⟩
  · intro i k hk
    exact ⟨hkeep _ _ (h.pending i k hk).1, (h.pending i k hk).2⟩
  · intro i k hk
    obtain ⟨hf, hs, ho, hc⟩ := h.inHand i k hk
    refine ⟨?_, hs, ho, hc⟩
    intro heq
    dsimp only at heq
    by_cases hkf : k % s.numFences = fence % s.numFences
    · rw [hkf, Function.update_self, Option.some.injEq] at heq
      have := h.claimed_le.trans (h.written_le.trans h.committed_le)
      omega
    · exact hf ((hother _ hkf).symm.trans heq)

theorem Inv.emitStep (h : s.Inv) {s' : State} (hstep : s.emitStep = some s') : s'.Inv := by
  have hemitting := h.emitting
  have hemitted := h.emitted
  simp only [State.emitStep] at hstep
  cases hemit : s.emit with
  | idle =>
    simp only [hemit] at hstep
    cases hstep
  | look seq fence =>
    simp only [hemit, reduceCtorEq, false_or, Emitting] at hstep hemitting hemitted
    have hstored : s.stored = s.emitted - 1 := by simp [stored, hemit]
    cases hslot : s.fences (s.slot seq) with
    | none =>
      simp only [hslot, Option.some.injEq] at hstep
      rw [← hstep]
      refine h.setEmit h.syncSeq hstored.symm (.inr hemitted) ⟨hemitting.1, ?_, ?_⟩
      · exact hemitting.2.trans (congrArg (· + 1) hstored)
      · rw [h.slot_eq hemitting.1] at hslot
        exact hslot
    | some old =>
      simp only [hslot, Option.some.injEq] at hstep
      rw [← hstep]
      refine h.setEmit h.syncSeq hstored.symm (.inr hemitted) ⟨hemitting.1, ?_⟩
      exact hemitting.2.trans (congrArg (· + 1) hstored)
  | get seq fence =>
    simp only [hemit, reduceCtorEq, false_or, Emitting] at hstep hemitting hemitted
    have hstored : s.stored = s.emitted - 1 := by simp [stored, hemit]
    cases hslot : s.fences (s.slot seq) with
    | none =>
      simp only [hslot, Option.some.injEq] at hstep
      rw [← hstep]
      refine h.setEmit h.syncSeq hstored.symm (.inr hemitted) ⟨hemitting.1, ?_, ?_⟩
      · exact hemitting.2.trans (congrArg (· + 1) hstored)
      · rw [h.slot_eq hemitting.1] at hslot
        exact hslot
    | some old =>
      simp only [hslot, Option.some.injEq] at hstep
      rw [← hstep]
      refine h.setEmit h.syncSeq hstored.symm (.inr hemitted) ⟨hemitting.1, ?_, ?_⟩
      · exact hemitting.2.trans (congrArg (· + 1) hstored)
      · rw [h.slot_eq hemitting.1] at hslot
        exact .inr hslot
  | wait seq fence old =>
    simp only [hemit, reduceCtorEq, false_or, Emitting] at hstep hemitting hemitted
    have hstored : s.stored = s.emitted - 1 := by simp [stored, hemit]
    split at hstep
    · next hsig =>
      obtain rfl := Option.some.inj hstep
      refine h.setEmit h.syncSeq hstored.symm (.inr hemitted) ⟨hemitting.1, ?_, ?_⟩
      · exact hemitting.2.1.trans (congrArg (· + 1) hstored)
      · -- a fence leaves its slot before it signals
        refine hemitting.2.2.resolve_right fun hold => ?_
        have := (h.slot _ _ (Nat.mod_lt _ h.sized.pos) hold).2.2
        rw [hsig] at this
        cases this
    · cases hstep
  | assign seq fence =>
    simp only [hemit, Option.some.injEq] at hstep
    rw [← hstep]
    exact (h.assign hemit).2

theorem Inv.commit (h : s.Inv) {s' : State} (hstep : s.commit = some s') : s'.Inv := by
  simp only [State.commit] at hstep
  split at hstep
  · next hidle =>
    obtain rfl := Option.some.inj hstep
    have hstored : s.stored = s.emitted := by simp [stored, hidle]
    exact { h with
      written_le := h.written_le.trans (h.committed_le.trans_eq hstored)
      committed_le := hstored.ge }
  · cases hstep

theorem Inv.hwWrite (h : s.Inv) {s' : State} {k : ℕ} (hstep : s.hwWrite k = some s') : s'.Inv := by
  simp only [State.hwWrite] at hstep
  split at hstep
  · next hk =>
    obtain rfl := Option.some.inj hstep
    exact { h with
      hw := rfl
      claimed_le := h.claimed_le.trans hk.1.le
      written_le := hk.2
      locals := fun i => (h.locals i).mono rfl le_rfl hk.1.le }
  · cases hstep

theorem Inv.step (h : s.Inv) {e : Event} {s' : State} (hgood : e.NotAround s)
    (hstep : s.step e = some s') : s'.Inv := by
  cases e with
  | emitBegin allocOk => exact h.emitBegin hstep
  | emitStep => exact h.emitStep hstep
  | commit => exact h.commit hstep
  | hwWrite k => exact h.hwWrite hstep
  | processBegin => exact Option.some.inj hstep ▸ h.processBegin
  | processStep i => exact h.processStep hgood hstep

theorem inv_of_initRing {num : UInt32} (hnum : num * 2 ≠ 0) (h : initRing num true = .ok s) :
    s.Inv := by
  have hsized : Sized s.numFences s.numFencesMask := by
    refine sized_of_initRing h ?_
    rw [initRing] at h
    split at h
    · cases h
    · obtain rfl := Except.ok.inj h
      exact fun heq => hnum (UInt32.toNat_inj.mp heq)
  rw [initRing] at h
  split at h
  · cases h
  · obtain rfl := Except.ok.inj h
    exact {
      sized := hsized
      syncSeq := rfl
      lastSeq := rfl
      hw := rfl
      claimed_le := le_rfl
      written_le := le_rfl
      committed_le := le_rfl
      emitted := .inl rfl
      emitting := trivial
      bug := rfl
      unclaimed := fun k hk hk' => absurd hk (not_lt.mpr hk')
      slot := fun j k _ hk => nomatch hk
      signaled := fun k hk => nomatch hk
      locals := fun i => trivial
      pending := fun i k hk => hk.elim
      inHand := fun i k hk => hk.elim
      covered := fun k hpos hk => absurd hpos (not_lt.mpr hk)
      fresh := fun i _ => rfl
      passed := fun i hp => hp.elim }

theorem Reachable.inv {num : UInt32} (hnum : num * 2 ≠ 0)
    (h : s.Reachable num fun s e => e.NotAround s) : s.Inv :=
  Transition.Reach.invariant (I := State.Inv) (fun _ hi => inv_of_initRing hnum hi)
    (fun _ _ _ hs hg hstep => hs.step hg hstep) h

/-- Before the first wrap nothing goes around. -/
theorem Inv.notAround (h : s.Inv) (hlt : s.claimed < 2 ^ 32) (e : Event) : e.NotAround s := by
  cases e with
  | processStep i =>
    intro lastSeq seq hpc hlast _
    have hlocal := h.locals i
    simp only [Run.Local, hpc] at hlocal
    have hmod := congrArg UInt32.toNat (h.lastSeq.symm.trans (hlast.trans hlocal.1))
    rw [UInt32.toNat_ofNat', UInt32.toNat_ofNat'] at hmod
    omega
  | _ => trivial

/-- When a run and all that started before it passed its compare-and-swap are done, every number
that it has seen the hardware write has been signaled. -/
theorem Inv.signaled_of_done (h : s.Inv) (hdone : (s.runs i).pc = .done)
    (hbefore : ∀ j < (s.runs i).horizon, (s.runs j).pc = .done) {k : ℕ} (hpos : 0 < k)
    (hk : k ≤ (s.runs i).seen) : s.signaled k = true := by
  have hpassed : (s.runs i).Passed := by simp [Run.Passed, hdone]
  have howner := hbefore _ (h.passed i hpassed k hpos hk)
  rcases (h.covered k hpos (hk.trans (h.passed_le hpassed))).2 with hs | hp | hh
  · exact hs
  · simp [Run.Pending, howner] at hp
  · simp [Run.InHand, howner] at hh

end State

end Gsgpu.FenceDriver
